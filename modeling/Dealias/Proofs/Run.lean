import Dealias.Proofs.Alias.Table
import Dealias.Proofs.Batch.Schedule
import Dealias.Run

/-!
# Runs do not depend on the schedule

A run discovers its files, works on them with a pool, and reports.  `RunConfig.Ran` describes what
it leaves behind as a function of the tree at the start, and `RunConfig.ran_of_runScheduled` says
that every schedule leaves just that.

* `RunOptions.schedule_independent`: the tree and the reports at the end of a run, given pointwise.
* `RunOptions.exists_runScheduled`: a run with a single worker is one of the schedules, so there is
  always one that comes to an end.
-/

namespace Dealias

/-! ## The parts of a run -/

section Parts

variable {Store : Type} [FileStore Store] {config : RunConfig} {budget : Nat}

/-- How a run of several workers ends. -/
theorem RunConfig.runScheduled_cases {schedule : List Nat} {store : Store}
    {result : Except RunFault RunReport} {world : World Store}
    (hrun : config.runScheduled budget schedule store = some (result, world)) :
    (∃ fault, ((config.prepare budget).run (World.start store)).1 = .error fault ∧
        result = .error fault ∧
        world = ((config.prepare budget).run (World.start store)).2) ∨
      ((config.prepare budget).run (World.start store)).1 = .ok none ∧
        result = .ok (.empty config.dryRun) ∧
        world = ((config.prepare budget).run (World.start store)).2 ∨
      ∃ files pool, ((config.prepare budget).run (World.start store)).1 = .ok (some files) ∧
        (Pool.start config.concurrency files
          ((config.prepare budget).run (World.start store)).2).follow? config.isolateFile
            schedule = some pool ∧
        pool.hasReturned = true ∧
        result = .ok ((config.conclude pool.outcome).run pool.world).1 ∧
        world = ((config.conclude pool.outcome).run pool.world).2 := by
  unfold RunConfig.runScheduled at hrun
  split at hrun
  · rename_i fault world' hprepare
    obtain ⟨rfl, rfl⟩ := Prod.mk.inj (Option.some.inj hrun)
    exact .inl ⟨fault, by rw [hprepare], rfl, by rw [hprepare]⟩
  · rename_i world' hprepare
    obtain ⟨rfl, rfl⟩ := Prod.mk.inj (Option.some.inj hrun)
    exact .inr (.inl ⟨by rw [hprepare], rfl, by rw [hprepare]⟩)
  · rename_i files world' hprepare
    split at hrun
    · cases hrun
    · rename_i pool hpool
      split at hrun
      · rename_i hreturned
        obtain ⟨rfl, rfl⟩ := Prod.mk.inj (Option.some.inj hrun)
        exact .inr (.inr ⟨files, pool, by rw [hprepare], by rw [hprepare]; exact hpool, hreturned,
          rfl, rfl⟩)
      · cases hrun

/-- A run of several workers that comes to an end. -/
theorem RunConfig.runScheduled_eq {schedule : List Nat} {store : Store} {files : List Path}
    {pool : Pool Store}
    (hprepare : ((config.prepare budget).run (World.start store)).1 = .ok (some files))
    (hpool : (Pool.start config.concurrency files
      ((config.prepare budget).run (World.start store)).2).follow? config.isolateFile schedule =
        some pool) (hreturned : pool.hasReturned = true) :
    config.runScheduled budget schedule store =
      some (.ok ((config.conclude pool.outcome).run pool.world).1,
        ((config.conclude pool.outcome).run pool.world).2) := by
  unfold RunConfig.runScheduled
  generalize (config.prepare budget).run (World.start store) = prepared at hprepare hpool
  obtain ⟨result, world⟩ := prepared
  subst hprepare
  dsimp only at hpool ⊢
  rw [hpool]
  exact if_pos hreturned

/-- A run with a single worker is one of the schedules. -/
theorem RunConfig.exists_runScheduled (config : RunConfig) (budget : Nat) (store : Store) :
    ∃ schedule, config.runScheduled budget schedule store =
      some ((config.run budget).run (World.start store)) := by
  unfold RunConfig.runScheduled RunConfig.run
  rw [Program.bind_eq, Program.run_bind]
  obtain ⟨result, world⟩ := (config.prepare budget).run (World.start store)
  match result with
  | .error fault => exact ⟨[], rfl⟩
  | .ok none => exact ⟨[], rfl⟩
  | .ok (some files) =>
      obtain ⟨schedule, pool, hpool, hreturned, houtcome, hworld⟩ :=
        Pool.exists_schedule_processAll config config.concurrency files world
      refine ⟨schedule, ?_⟩
      dsimp only
      rw [hpool]
      dsimp only
      rw [if_pos hreturned, houtcome, hworld, Program.bind_eq, Program.run_bind, Program.bind_eq,
        Program.run_bind]
      rfl

theorem RunOptions.runScheduled_of_configure {options : RunOptions}
    (hconfigure : options.configure = .ok config) (schedule : List Nat) (store : Store) :
    options.runScheduled schedule store =
      config.runScheduled (options.directoryBound store) schedule store := by
  rw [runScheduled, hconfigure]

theorem RunOptions.exists_runScheduled (options : RunOptions) (store : Store) :
    ∃ schedule, options.runScheduled schedule store = some (options.run store) := by
  unfold RunOptions.runScheduled RunOptions.run RunOptions.runWithin
  cases options.configure with
  | error fault => exact ⟨[], rfl⟩
  | ok config => exact config.exists_runScheduled _ store

end Parts

/-! ## The files of a run -/

/-- Whether these are the files of a run: none when there is no alias, and else the discovered
ones. -/
def RunConfig.WorksOn (config : RunConfig) (budget : Nat) (tree : MemoryTree)
    (files : List Path) : Prop :=
  if config.aliases.entries = [] then files = []
  else ((discover budget config.outDir).run (World.start tree)).1 = .ok files

variable {config : RunConfig} {budget : Nat} {tree : MemoryTree}

/-- Before it works on files a run only explores. -/
theorem RunConfig.within_prepare (config : RunConfig) (budget : Nat) :
    (config.prepare budget).Within Request.Explores fun _ => True := by
  refine (Program.within_request ⟨rfl, nofun⟩).bind fun present _ => ?_
  cases present with
  | false => trivial
  | true =>
      refine (Program.within_request (explores_emit (.inl rfl))).bind fun _ _ => ?_
      cases config.aliases.entries.isEmpty with
      | true => exact (Program.within_request (explores_emit (.inl rfl))).bind fun _ _ => trivial
      | false =>
          refine (within_discover budget config.outDir).bind fun discovered _ => ?_
          cases discovered <;> trivial

theorem RunConfig.onlyAsks_prepare (config : RunConfig) (budget : Nat) :
    (config.prepare budget).OnlyAsks :=
  (config.within_prepare budget).mono (fun _ => And.left) fun _ _ => trivial

/-- What a run finds before it works on files. -/
theorem RunConfig.finds_prepare (config : RunConfig) (budget : Nat) (tree : MemoryTree) :
    (config.prepare budget).Finds tree fun result =>
      ∀ batch, result = .ok batch → config.WorksOn budget tree (batch.getD []) ∧
        (batch = none ↔ config.aliases.entries = []) := by
  have hstart : (World.start tree).Agrees tree :=
    World.agrees_start (.refl tree) (List.suffix_refl _)
  refine (Program.finds_isPresent config.outDir).bind fun present _ => ?_
  cases present with
  | false => exact Program.finds_pure nofun
  | true =>
      refine (Program.finds_emit _).bind fun _ _ => ?_
      unfold RunConfig.WorksOn
      cases hentries : config.aliases.entries with
      | nil =>
          refine (Program.finds_emit _).bind fun _ _ => Program.finds_pure ?_
          rintro _ hbatch
          obtain rfl := Except.ok.inj hbatch
          simp
      | cons entry others =>
          -- discovery asks about places, and these are as in the tree at the start
          refine ((onlyAsks_discover budget config.outDir).finds hstart).bind ?_
          rintro _ rfl
          cases hdiscover : ((discover budget config.outDir).run (World.start tree)).1 with
          | error fault => exact Program.finds_pure nofun
          | ok files =>
              refine Program.finds_pure ?_
              rintro _ hbatch
              obtain rfl := Except.ok.inj hbatch
              simp

/-- What a run finds when its output directory is there and it has aliases. -/
theorem RunConfig.prepare_of_discover {files : List Path}
    (hpresent : tree.isPresent config.outDir = true) (hentries : config.aliases.entries ≠ [])
    (hdiscover : ((discover budget config.outDir).run (World.start tree)).1 = .ok files) :
    ((config.prepare budget).run (World.start tree)).1 = .ok (some files) := by
  have hstart : (World.start tree).Agrees tree :=
    World.agrees_start (.refl tree) (List.suffix_refl _)
  have hfinds : (config.prepare budget).Finds tree (· = .ok (some files)) := by
    refine (Program.finds_isPresent config.outDir).bind ?_
    rintro _ rfl
    rw [hpresent]
    refine (Program.finds_emit _).bind fun _ _ => ?_
    rw [List.isEmpty_eq_false_iff.mpr hentries]
    refine ((onlyAsks_discover budget config.outDir).finds hstart).bind ?_
    rintro _ rfl
    rw [hdiscover]
    exact Program.finds_pure rfl
  exact (hfinds.run hstart).2.1

/-- The files of a run are discovered. -/
theorem RunConfig.WorksOn.discovered {files : List Path} (hfiles : config.WorksOn budget tree files)
    (hroot : config.outDir.location ≠ []) (hplain : tree.IsPlain config.outDir.location) :
    Discovered tree config.outDir files := by
  unfold RunConfig.WorksOn at hfiles
  split at hfiles
  · subst hfiles
    exact ⟨nofun, nofun, nofun, .nil, .nil⟩
  · have hstart : (World.start tree).Agrees tree :=
      World.agrees_start (.refl tree) (List.suffix_refl _)
    exact ((discover_finds hroot hplain budget).run hstart).2.1 files hfiles

/-! ## What a run leaves behind -/

/-- What a run leaves behind, given by the tree at the start. -/
structure RunConfig.Ran (config : RunConfig) (tree : MemoryTree) (files : List Path)
    (report : RunReport) (world : World MemoryTree) : Prop where
  discovered : Discovered tree config.outDir files
  agrees : world.Agrees tree
  view : ∀ file ∈ files,
    world.store.view file.location = tree.viewAfter file (config.newContent? tree file)
  others : ∀ place, (∀ file ∈ files, file.location ≠ place) →
    world.store.view place = tree.view place
  reports : report.files = files.map (config.reportIn tree)

/-- **Every schedule.**  Whatever the schedule, a run that is not refused leaves the same behind. -/
theorem RunConfig.ran_of_runScheduled (hroot : config.outDir.location ≠ [])
    (hplain : tree.IsPlain config.outDir.location) {schedule : List Nat} {report : RunReport}
    {world : World MemoryTree}
    (hrun : config.runScheduled budget schedule tree = some (.ok report, world)) :
    ∃ files, config.WorksOn budget tree files ∧ config.Ran tree files report world := by
  have hstart : (World.start tree).Agrees tree :=
    World.agrees_start (.refl tree) (List.suffix_refl _)
  obtain ⟨hagrees, hbatch, hview⟩ := (config.finds_prepare budget tree).run hstart
  rcases RunConfig.runScheduled_cases hrun with ⟨fault, -, hresult, -⟩ |
    ⟨hprepare, hresult, rfl⟩ | ⟨files, pool, hprepare, hpool, hreturned, hresult, rfl⟩
  · cases hresult
  · obtain rfl := Except.ok.inj hresult
    obtain ⟨hfiles, -⟩ := hbatch none hprepare
    exact ⟨[], hfiles, hfiles.discovered hroot hplain, hagrees, nofun, fun place _ => hview place,
      rfl⟩
  · obtain rfl := Except.ok.inj hresult
    obtain ⟨hfiles, -⟩ := hbatch (some files) hprepare
    have hdiscovered := hfiles.discovered hroot hplain
    have hfaithful := Pool.faithful_of_follow? hdiscovered
      (Pool.faithful_start hagrees hview) hpool
    exact ⟨files, hfiles, hdiscovered, hfaithful.agrees.of_store (.refl _) rfl rfl
      (List.suffix_refl _), fun file hfile => hfaithful.view_eq hreturned hfile,
      hfaithful.others, hfaithful.outcome_eq hdiscovered hreturned⟩

theorem RunOptions.configure_ok {options : RunOptions}
    (hconfigure : options.configure = .ok config) :
    config.outDir = options.outDir.anchor options.projectDir ∧
      AliasTable.build options.paths config.outDir (options.baseUrl.getD ⟨"."⟩) =
        .ok config.aliases ∧
      config.dryRun = options.dryRun := by
  unfold RunOptions.configure at hconfigure
  dsimp only at hconfigure
  cases hbuild : AliasTable.build options.paths (options.outDir.anchor options.projectDir)
      (options.baseUrl.getD ⟨"."⟩) with
  | error fault =>
      rw [hbuild] at hconfigure
      cases hconfigure
  | ok aliases =>
      rw [hbuild] at hconfigure
      obtain rfl := Except.ok.inj hconfigure
      exact ⟨rfl, hbuild, rfl⟩

/-- A run with options that is not refused. -/
theorem RunOptions.ran_of_runScheduled {options : RunOptions} {schedule : List Nat}
    {report : RunReport} {world : World MemoryTree}
    (hplain : tree.IsPlain (options.outDir.anchor options.projectDir).location)
    (hrun : options.runScheduled schedule tree = some (.ok report, world)) :
    ∃ config files, options.configure = .ok config ∧
      config.WorksOn (options.directoryBound tree) tree files ∧
      config.Ran tree files report world := by
  unfold RunOptions.runScheduled at hrun
  split at hrun
  · cases (Prod.mk.inj (Option.some.inj hrun)).1
  · rename_i config hconfigure
    obtain ⟨houtDir, -⟩ := RunOptions.configure_ok hconfigure
    have hroot : config.outDir.location ≠ [] :=
      houtDir ▸ (Path.isNormal_anchor _ _).location_ne_nil
    obtain ⟨files, hfiles, hran⟩ :=
      RunConfig.ran_of_runScheduled hroot (houtDir ▸ hplain) hrun
    exact ⟨config, files, hconfigure, hfiles, hran⟩

/-! ## The whole tree -/

/-- The content that a run gives the file at a place, if any. -/
def RunConfig.newContentAt? (config : RunConfig) (tree : MemoryTree) (files : List Path)
    (place : Location) : Option ByteArray :=
  (files.find? fun file => file.location == place).bind (config.newContent? tree)

theorem lookup_map_value {Key Value : Type} [BEq Key] [LawfulBEq Key] (change : Key → Value → Value)
    (entries : List (Key × Value)) (key : Key) :
    (entries.map fun entry => (entry.1, change entry.1 entry.2)).lookup key =
      (entries.lookup key).map (change key) := by
  induction entries with
  | nil => rfl
  | cons entry rest ih =>
      obtain ⟨first, value⟩ := entry
      by_cases hsame : key = first
      · subst hsame
        simp
      · simp [List.lookup_cons, beq_false_of_ne hsame, ih]

/-- The files of the tree that a run leaves behind. -/
theorem RunConfig.Ran.files_eq {files : List Path} {report : RunReport} {world : World MemoryTree}
    (hran : config.Ran tree files report world) :
    world.store.files = tree.files.map fun entry =>
      (entry.1, (config.newContentAt? tree files entry.1).getD entry.2) := by
  refine eq_of_lookup_eq ?_ world.store.distinct fun place => ?_
  · rw [hran.agrees.store.places, List.map_map]
    rfl
  · rw [lookup_map_value fun place content =>
      (config.newContentAt? tree files place).getD content]
    change (world.store.view place).content = (tree.view place).content.map _
    cases hfind : files.find? fun file => file.location == place with
    | none =>
        -- no discovered file stands there
        have hplace : ∀ file ∈ files, file.location ≠ place := by
          simpa using hfind
        rw [hran.others place hplace]
        simp [newContentAt?, hfind]
    | some file =>
        have hfile := List.mem_of_find?_eq_some hfind
        obtain rfl : file.location = place := by simpa using List.find?_some hfind
        obtain ⟨content, hcontent⟩ :=
          Option.isSome_iff_exists.mp (hran.discovered.stored file hfile)
        rw [hran.view file hfile]
        simp only [newContentAt?, hfind, Option.bind_some]
        cases config.newContent? tree file with
        | none => simp [MemoryTree.viewAfter]
        | some new => simp [MemoryTree.viewAfter, MemoryTree.view, hcontent]

/-- **Independence of the schedule.**  When no link is the output directory or an ancestor of it, a
run that is not refused leaves every file as it was, except that each discovered file gets the
content that the tree at the start gives it, if any; and it reports on each discovered file what the
tree at the start gives, in ascending order.  Nothing in this depends on the schedule or the number
of workers. -/
theorem RunOptions.schedule_independent (options : RunOptions) (schedule : List Nat)
    (tree : MemoryTree) (report : RunReport) (world : World MemoryTree)
    (hplain : ∀ link ∈ tree.links,
      ¬ link.1 <+: (options.outDir.anchor options.projectDir).location)
    (hrun : options.runScheduled schedule tree = some (.ok report, world)) :
    ∃ config files, options.configure = .ok config ∧
      (if config.aliases.entries = [] then files = []
        else ((discover (options.directoryBound tree) config.outDir).run (World.start tree)).1 =
          .ok files) ∧
      world.store.files = tree.files.map (fun entry =>
        (entry.1, (config.newContentAt? tree files entry.1).getD entry.2)) ∧
      world.store.links = tree.links ∧
      report.files = files.map (config.reportIn tree) ∧
      files.Pairwise (fun first second => first.le second = true) ∧
      (files.map Path.location).Nodup ∧
      ∀ file ∈ files, tree.resolve? file = some file.location ∧
        tree.hasFile file.location = true := by
  obtain ⟨config, files, hconfigure, hfiles, hran⟩ := RunOptions.ran_of_runScheduled hplain hrun
  exact ⟨config, files, hconfigure, hfiles, hran.files_eq, hran.agrees.store.links, hran.reports,
    hran.discovered.sorted, hran.discovered.distinct, fun file hfile =>
      ⟨(hran.discovered.plain file hfile).resolve?_eq, hran.discovered.stored file hfile⟩⟩

/-! ## Two modules -/

/-- A module that imports another one by an alias. -/
def MemoryTree.sample : MemoryTree :=
  ((MemoryTree.empty ⟨"/"⟩).putFile [.root, .name "p", .name "dist", .name "a.js"]
    "import '@/b'".toUTF8).putFile [.root, .name "p", .name "dist", .name "b.js"] "".toUTF8

/-- A run of two workers with one alias. -/
def RunOptions.sample : RunOptions where
  projectDir := ⟨"/p"⟩
  outDir := ⟨"dist"⟩
  baseUrl := none
  rootDir := none
  paths := .ofList [("@/*", ["*"])]
  concurrency := 2
  dryRun := false

/-- What the run works with. -/
def RunConfig.sample : RunConfig where
  outDir := ⟨"/p/dist"⟩
  baseUrl := ⟨"."⟩
  rootDir := none
  aliases := ⟨[⟨"@/*", "@/", .leading, [⟨⟨"/p/dist/"⟩, ""⟩]⟩]⟩
  concurrency := 2
  dryRun := false

theorem RunOptions.configure_sample : RunOptions.sample.configure = .ok RunConfig.sample := by
  have hanchor : (⟨"."⟩ : Path).anchor ⟨"/p/dist"⟩ = ⟨"/p/dist"⟩ := by decide +kernel
  have houtDir : RunOptions.sample.outDir.anchor RunOptions.sample.projectDir = ⟨"/p/dist"⟩ := by
    decide +kernel
  have hbuild : AliasTable.build RunOptions.sample.paths ⟨"/p/dist"⟩ ⟨"."⟩ =
      .ok RunConfig.sample.aliases :=
    AliasTable.build_singleton (by rw [hanchor]; rfl)
  unfold RunOptions.configure
  rw [houtDir]
  change (AliasTable.build RunOptions.sample.paths ⟨"/p/dist"⟩ ⟨"."⟩ >>= _) = _
  rw [hbuild]
  rfl

theorem RunConfig.discover_sample :
    ((discover (RunOptions.sample.directoryBound MemoryTree.sample) RunConfig.sample.outDir).run
      (World.start MemoryTree.sample)).1 = .ok [⟨"/p/dist/a.js"⟩, ⟨"/p/dist/b.js"⟩] := by
  have hexplore : ((Walk.explore RunConfig.sample.outDir
      (RunOptions.sample.directoryBound MemoryTree.sample) (.start RunConfig.sample.outDir)).run
        (World.start MemoryTree.sample)).1.toOption =
      some ⟨[], [⟨"/p/dist/b.js"⟩, ⟨"/p/dist/a.js"⟩]⟩ := by decide +kernel
  rw [discover_of_explore hexplore]
  exact congrArg Except.ok (List.mergeSort_of_pairwise (by decide +kernel))

theorem RunConfig.prepare_sample :
    ((RunConfig.sample.prepare (RunOptions.sample.directoryBound MemoryTree.sample)).run
      (World.start MemoryTree.sample)).1 = .ok (some [⟨"/p/dist/a.js"⟩, ⟨"/p/dist/b.js"⟩]) :=
  RunConfig.prepare_of_discover (by decide +kernel) (by decide +kernel) RunConfig.discover_sample

/-- A schedule that calls the two workers in turns until both are done. -/
def RunOptions.sampleSchedule : List Nat :=
  [0, 1, 0, 1, 0, 1, 0, 1, 0, 0, 0, 0, 0, 0, 0]

theorem RunOptions.exists_runScheduled_sample :
    ∃ report world, RunOptions.sample.runScheduled RunOptions.sampleSchedule MemoryTree.sample =
      some (.ok report, world) := by
  have hreturns : ((Pool.start 2 [⟨"/p/dist/a.js"⟩, ⟨"/p/dist/b.js"⟩]
      ((RunConfig.sample.prepare (RunOptions.sample.directoryBound MemoryTree.sample)).run
        (World.start MemoryTree.sample)).2).follow? RunConfig.sample.isolateFile
          RunOptions.sampleSchedule).any Pool.hasReturned = true := by
    decide +kernel
  obtain ⟨pool, hpool, hreturned⟩ := (Option.any_eq_true _ _).mp hreturns
  have hconfigured := RunOptions.runScheduled_of_configure RunOptions.configure_sample
    RunOptions.sampleSchedule MemoryTree.sample
  exact ⟨_, _, hconfigured.trans
    (RunConfig.runScheduled_eq RunConfig.prepare_sample hpool hreturned)⟩

/-- The two workers take turns, and the alias is replaced. -/
theorem RunOptions.schedule_independent_sample :
    ∃ report world,
      RunOptions.sample.runScheduled RunOptions.sampleSchedule MemoryTree.sample =
        some (.ok report, world) ∧
      world.store.files =
        [([.root, .name "p", .name "dist", .name "a.js"], "import './b'".toUTF8),
          ([.root, .name "p", .name "dist", .name "b.js"], "".toUTF8)] ∧
      report.files =
        [⟨⟨"/p/dist/a.js"⟩, .replaced 1, []⟩, ⟨⟨"/p/dist/b.js"⟩, .unchanged, []⟩] := by
  obtain ⟨report, world, hrun⟩ := RunOptions.exists_runScheduled_sample
  obtain ⟨config, files, hconfigure, hfiles, hstore, -, hreports, -⟩ :=
    RunOptions.schedule_independent RunOptions.sample _ MemoryTree.sample _ _ nofun hrun
  obtain rfl := Except.ok.inj (RunOptions.configure_sample.symm.trans hconfigure)
  obtain rfl : files = [⟨"/p/dist/a.js"⟩, ⟨"/p/dist/b.js"⟩] := by
    rw [if_neg (by decide +kernel)] at hfiles
    exact Except.ok.inj (hfiles.symm.trans RunConfig.discover_sample)
  refine ⟨report, world, hrun, ?_, ?_⟩
  · rw [hstore]
    decide +kernel
  · rw [hreports]
    decide +kernel

end Dealias
