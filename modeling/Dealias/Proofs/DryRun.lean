import Dealias.Proofs.Refusal

/-!
# A dry run predicts the real one

A dry run asks for no write, whatever its requests are answered (`Program.WritesNothing`), so the
tree behind it is the tree at the start but for the counts of reads and descriptions
(`MemoryTree.Consulted`).  `RunOptions.dry_run_predicts` adds that its report tells what a real run
on the same tree reports, whatever the two schedules, except on files whose writes fail.

The real run writes files while others are worked on, and the dry run does not.  That makes no
difference because the report on a file is a function of the tree at the start
(`RunConfig.reportIn`), for every schedule of either run.
-/

namespace Dealias

/-! ## Programs that write nothing -/

/-- Whether a request writes a file. -/
def Request.isWrite : Request → Bool
  | write _ _ => true
  | _ => false

namespace Program

variable {First Second : Type}

/-- Whether a program asks for no write, whatever the replies are. -/
abbrev WritesNothing (program : Program First) : Prop :=
  program.Within (fun request => request.isWrite = false) fun _ => True

theorem writesNothing_request {request : Request} (hrequest : request.isWrite = false) :
    (Program.request request).WritesNothing :=
  within_request hrequest

theorem WritesNothing.bind {program : Program First} {next : First → Program Second}
    (hprogram : program.WritesNothing) (hnext : ∀ result, (next result).WritesNothing) :
    (program >>= next).WritesNothing :=
  Within.bind hprogram fun result _ => hnext result

theorem OnlyLooks.writesNothing {program : Program First} (hlooks : program.OnlyLooks) :
    program.WritesNothing := by
  refine hlooks.mono (fun request hlook => ?_) fun _ => id
  cases request with
  | write path content => cases hlook
  | _ => rfl

theorem OnlyAsks.writesNothing {program : Program First} (hasks : program.OnlyAsks) :
    program.WritesNothing := by
  refine hasks.mono (fun request hquestion => ?_) fun _ => id
  cases request with
  | write path content => cases hquestion
  | _ => rfl

theorem writesNothing_fail (fault : FileFault) : (Program.fail fault).WritesNothing :=
  (writesNothing_request rfl).bind fun _ => trivial

end Program

namespace RunConfig

variable {config : RunConfig}

theorem writesNothing_settle (hdryRun : config.dryRun = true) (path : Path) (rewired : Rewired) :
    (config.settle path rewired).WritesNothing := by
  unfold settle
  rw [hdryRun]
  split
  · trivial
  · trivial

theorem writesNothing_processContent (hdryRun : config.dryRun = true) (path : Path)
    (content : ByteArray) : (config.processContent path content).WritesNothing := by
  unfold processContent
  split
  · exact (Program.writesNothing_fail _).bind fun _ => trivial
  · rename_i text _
    have hrewire := (config.aliases.onlyLooks_rewire text path).writesNothing
    exact hrewire.bind fun _ => (writesNothing_settle hdryRun path _).bind fun _ => trivial

theorem writesNothing_isolateFile (hdryRun : config.dryRun = true) (path : Path) :
    (config.isolateFile path).WritesNothing := by
  have hprocess : (config.processFile path).WritesNothing := by
    refine (Program.writesNothing_request rfl).bind fun reply => ?_
    cases reply with
    | content content =>
        exact (writesNothing_processContent hdryRun path content).bind fun _ => trivial
    | failed cause => exact (Program.writesNothing_fail _).bind fun _ => trivial
    | crashed message => trivial
  refine hprocess.bind fun taskEnd => ?_
  cases taskEnd with
  | ok report => trivial
  | error message => exact (Program.writesNothing_fail _).bind fun _ => trivial

theorem writesNothing_prepare (config : RunConfig) (budget : Nat) :
    (config.prepare budget).WritesNothing :=
  (config.onlyAsks_prepare budget).writesNothing

theorem writesNothing_conclude (config : RunConfig) (batch : BatchOutcome) :
    (config.conclude batch).WritesNothing :=
  (Program.writesNothing_request rfl).bind fun _ =>
    (Program.writesNothing_request rfl).bind fun _ => trivial

end RunConfig

/-! ## Trees that are consulted -/

/-- Whether another tree is a tree with more reads and descriptions counted. -/
def MemoryTree.Consulted (tree other : MemoryTree) : Prop :=
  other = { tree with reads := other.reads, probes := other.probes }

namespace MemoryTree.Consulted

variable {tree other third : MemoryTree}

theorem refl (tree : MemoryTree) : tree.Consulted tree := rfl

theorem trans (hfirst : tree.Consulted other) (hsecond : other.Consulted third) :
    tree.Consulted third := by
  unfold Consulted at *
  rw [hfirst] at hsecond
  exact hsecond

end MemoryTree.Consulted

/-- A request that writes nothing only consults the tree. -/
theorem World.consulted_answer {request : Request} (hrequest : request.isWrite = false)
    (world : World MemoryTree) : world.store.Consulted (world.answer request).2.store := by
  cases request with
  | write path content => cases hrequest
  | _ => rfl

theorem Program.WritesNothing.consulted {Result : Type} {program : Program Result}
    (hprogram : program.WritesNothing) (world : World MemoryTree) :
    world.store.Consulted (program.run world).2.store := by
  induction program generalizing world with
  | done result => exact .refl _
  | ask request next ih =>
      obtain ⟨hrequest, hnext⟩ := hprogram
      exact (World.consulted_answer hrequest world).trans (ih _ (hnext _) _)

/-- Whether what a worker has left to do writes nothing. -/
def Worker.WritesNothing : Worker → Prop
  | busy _ rest => rest.WritesNothing
  | _ => True

namespace Pool

variable {task : Path → Program TaskEnd} {tree : MemoryTree}

/-- Whether the workers of a pool have only consulted a tree and will write nothing. -/
structure Consults (tree : MemoryTree) (pool : Pool MemoryTree) : Prop where
  store : tree.Consulted pool.world.store
  workers : ∀ worker ∈ pool.workers, worker.WritesNothing

theorem Consults.step {pool next : Pool MemoryTree} {number : Nat}
    (htask : ∀ path, (task path).WritesNothing) (hconsults : Consults tree pool)
    (hstep : Step task pool number next) : Consults tree next := by
  obtain ⟨hstore, hworkers⟩ := hconsults
  cases hstep with
  | finish front back reports world =>
      exact ⟨hstore, forall_mem_replace hworkers fun _ => trivial⟩
  | take path waiting front back reports world =>
      exact ⟨hstore, forall_mem_replace hworkers fun _ => htask path⟩
  | ask path request rest queue front back reports world =>
      obtain ⟨hrequest, -⟩ := hworkers (.busy path (.ask request rest)) (by simp)
      refine ⟨hstore.trans (World.consulted_answer hrequest world), ?_⟩
      exact forall_mem_replace hworkers fun hworker => hworker.2 _
  | report path report queue front back reports world =>
      exact ⟨hstore, forall_mem_replace hworkers fun _ => trivial⟩
  | crash path message queue front back reports world =>
      exact ⟨hstore, forall_mem_replace hworkers fun _ => trivial⟩

theorem consults_of_follow? {pool next : Pool MemoryTree} {schedule : List Nat}
    (htask : ∀ path, (task path).WritesNothing) (hconsults : Consults tree pool)
    (hfollow : pool.follow? task schedule = some next) : Consults tree next :=
  follow?_invariant (fun _ _ _ hconsults hstep => hconsults.step htask hstep) hconsults hfollow

end Pool

/-! ## Reports -/

/-- What a real run reports on a file by the report of a dry run: a file that would be replaced and
whose write fails has failed. -/
def FileReport.carriedOut (tree : MemoryTree) (report : FileReport) : FileReport :=
  match report.outcome with
  | .replaced _ =>
    if report.path.location ∈ tree.failingWrites then
      { report with
        outcome := .failed (.unwritable report.path (MemoryTree.writeFault report.path)) }
    else report
  | _ => report

section Runs

variable {config : RunConfig} {budget : Nat} {schedule : List Nat} {tree : MemoryTree}

/-- The report of a real run on a file, by the report of a dry run with the same configuration. -/
theorem RunConfig.reportIn_carriedOut (config : RunConfig) (tree : MemoryTree) (file : Path) :
    { config with dryRun := false }.reportIn tree file =
      ({ config with dryRun := true }.reportIn tree file).carriedOut tree := by
  unfold reportIn
  cases (tree.read file).1 with
  | crashed message => rfl
  | failed cause => rfl
  | content bytes =>
      dsimp only
      cases String.fromUTF8? bytes with
      | none => rfl
      | some text =>
          dsimp only [outcomeOf]
          generalize ((config.aliases.rewire text file).run (World.start tree)).1 = rewired
          cases rewired.isChanged with
          | false => rfl
          | true =>
              by_cases hfailing : file.location ∈ tree.failingWrites
              · simp [FileReport.carriedOut, hfailing]
              · simp [FileReport.carriedOut, hfailing]

/-- No run loses a worker. -/
theorem RunConfig.lostWorkers_of_runScheduled {report : RunReport} {world : World MemoryTree}
    (hrun : config.runScheduled budget schedule tree = some (.ok report, world)) :
    report.lostWorkers = [] := by
  rcases RunConfig.runScheduled_cases hrun with ⟨fault, -, hresult, -⟩ | ⟨-, hresult, -⟩ |
    ⟨files, pool, -, hpool, -, hresult, -⟩
  · cases hresult
  · obtain rfl := Except.ok.inj hresult
    rfl
  · obtain rfl := Except.ok.inj hresult
    have haccounts := Pool.accounts_of_follow? (Pool.accounts_start _) hpool
    change (pool.workers.filterMap Worker.crash?).map lostWorkerMessage = []
    rw [haccounts.crash?_eq_nil]
    rfl

/-- A dry run only consults the tree. -/
theorem RunConfig.consulted_of_runScheduled (hdryRun : config.dryRun = true)
    {result : Except RunFault RunReport} {world : World MemoryTree}
    (hrun : config.runScheduled budget schedule tree = some (result, world)) :
    tree.Consulted world.store := by
  have hprepare := (config.writesNothing_prepare budget).consulted (World.start tree)
  rcases RunConfig.runScheduled_cases hrun with ⟨fault, -, -, rfl⟩ | ⟨-, -, rfl⟩ |
    ⟨files, pool, -, hpool, -, -, rfl⟩
  · exact hprepare
  · exact hprepare
  · have hstart : Pool.Consults tree (Pool.start config.concurrency files
        ((config.prepare budget).run (World.start tree)).2) :=
      ⟨hprepare, fun worker hworker => by
        obtain rfl := List.eq_of_mem_replicate hworker
        trivial⟩
    have hconsults :=
      Pool.consults_of_follow? (writesNothing_isolateFile hdryRun) hstart hpool
    exact hconsults.store.trans ((config.writesNothing_conclude pool.outcome).consulted pool.world)

/-! ## Runs -/

theorem RunOptions.configure_dryRun (options : RunOptions) (dryRun : Bool) :
    { options with dryRun }.configure =
      options.configure.map fun config => { config with dryRun } := by
  unfold configure
  dsimp only
  cases AliasTable.build options.paths (options.outDir.anchor options.projectDir)
    (options.baseUrl.getD ⟨"."⟩) <;> rfl

theorem RunOptions.consulted_of_runScheduled {options : RunOptions}
    (hdryRun : options.dryRun = true) {result : Except RunFault RunReport}
    {world : World MemoryTree}
    (hrun : options.runScheduled schedule tree = some (result, world)) :
    tree.Consulted world.store := by
  cases hconfigure : options.configure with
  | error fault =>
      rw [runScheduled, hconfigure] at hrun
      obtain ⟨-, rfl⟩ := Prod.mk.inj (Option.some.inj hrun)
      exact .refl tree
  | ok config =>
      obtain ⟨-, -, hconfig⟩ := configure_ok hconfigure
      rw [runScheduled_of_configure hconfigure] at hrun
      exact RunConfig.consulted_of_runScheduled (hconfig.trans hdryRun) hrun

/-- A run with one configuration works on one list of files. -/
theorem RunConfig.WorksOn.eq {files files' : List Path} (hfiles : config.WorksOn budget tree files)
    (hfiles' : config.WorksOn budget tree files') : files = files' := by
  unfold RunConfig.WorksOn at hfiles hfiles'
  split at hfiles
  · rw [if_pos ‹_›] at hfiles'
    exact hfiles.trans hfiles'.symm
  · rw [if_neg ‹_›] at hfiles'
    exact Except.ok.inj (hfiles.symm.trans hfiles')

/-- The reports of a dry run and of a real run that are not refused. -/
theorem RunOptions.files_carriedOut {options : RunOptions} {schedule schedule' : List Nat}
    {report report' : RunReport} {world world' : World MemoryTree}
    (hplain : tree.IsPlain (options.outDir.anchor options.projectDir).location)
    (hdry : { options with dryRun := true }.runScheduled schedule tree =
      some (.ok report, world))
    (hreal : { options with dryRun := false }.runScheduled schedule' tree =
      some (.ok report', world')) :
    report'.files = report.files.map (FileReport.carriedOut tree) := by
  obtain ⟨dryConfig, files, hconfigure, hfiles, hran⟩ :=
    (fun h => ran_of_runScheduled h hdry) hplain
  obtain ⟨realConfig, files', hconfigure', hfiles', hran'⟩ :=
    (fun h => ran_of_runScheduled h hreal) hplain
  rw [configure_dryRun] at hconfigure hconfigure'
  cases hconfig : options.configure with
  | error fault =>
      rw [hconfig] at hconfigure
      cases hconfigure
  | ok config =>
      rw [hconfig] at hconfigure hconfigure'
      obtain rfl := Except.ok.inj hconfigure
      obtain rfl := Except.ok.inj hconfigure'
      -- whether a run is a dry one has no part in which files it works on
      obtain rfl : files' = files := RunConfig.WorksOn.eq hfiles' hfiles
      calc report'.files
          = files'.map ({ config with dryRun := false }.reportIn tree) := hran'.reports
        _ = files'.map fun file =>
              ({ config with dryRun := true }.reportIn tree file).carriedOut tree :=
          List.map_congr_left fun file _ => config.reportIn_carriedOut tree file
        _ = (files'.map ({ config with dryRun := true }.reportIn tree)).map
              (FileReport.carriedOut tree) := by rw [List.map_map]; rfl
        _ = report.files.map (FileReport.carriedOut tree) := by rw [hran.reports]

theorem RunOptions.lostWorkers_of_runScheduled {options : RunOptions} {report : RunReport}
    {world : World MemoryTree}
    (hrun : options.runScheduled schedule tree = some (.ok report, world)) :
    report.lostWorkers = [] := by
  cases hconfigure : options.configure with
  | error fault =>
      rw [runScheduled, hconfigure] at hrun
      cases (Prod.mk.inj (Option.some.inj hrun)).1
  | ok config =>
      rw [runScheduled_of_configure hconfigure] at hrun
      exact RunConfig.lostWorkers_of_runScheduled hrun

/-- **A dry run predicts the real one.**  When no link is the output directory or an ancestor of it,
a dry run and a real run with otherwise the same options on the same tree, each with a schedule of
its own, are both refused with the same fault, or both report, on the same files in the same order,
the same unresolved imports and the same outcomes; except that a file which the dry run reports as
replaced and whose write fails has failed in the real run.  The dry run asks for no write, whatever
its requests are answered, and leaves the tree as it was but for the counts of reads and
descriptions. -/
theorem RunOptions.dry_run_predicts (options : RunOptions) (tree : MemoryTree)
    (schedule schedule' : List Nat) (result result' : Except RunFault RunReport)
    (world world' : World MemoryTree)
    (hplain : ∀ link ∈ tree.links,
      ¬ link.1 <+: (options.outDir.anchor options.projectDir).location)
    (hdry : { options with dryRun := true }.runScheduled schedule tree = some (result, world))
    (hreal : { options with dryRun := false }.runScheduled schedule' tree =
      some (result', world')) :
    ((∃ fault, result = .error fault ∧ result' = .error fault) ∨
      ∃ report report', result = .ok report ∧ result' = .ok report' ∧
        report'.files = report.files.map (FileReport.carriedOut tree) ∧
        report.lostWorkers = [] ∧ report'.lostWorkers = []) ∧
    world.store = { tree with reads := world.store.reads, probes := world.store.probes } ∧
    ∀ config, { options with dryRun := true }.configure = .ok config →
      (config.prepare (options.directoryBound tree)).WritesNothing ∧
      (∀ file, (config.isolateFile file).WritesNothing) ∧
      ∀ batch, (config.conclude batch).WritesNothing := by
  obtain ⟨herror, -⟩ := error_iff hdry
  obtain ⟨herror', -⟩ := error_iff hreal
  have hrefusal : { options with dryRun := true }.refusal? tree =
      { options with dryRun := false }.refusal? tree := rfl
  refine ⟨?_, ?_, ?_⟩
  · cases result with
    | error fault =>
        have hfault := (herror fault).mp rfl
        exact .inl ⟨fault, rfl, (herror' fault).mpr (hrefusal.symm.trans hfault)⟩
    | ok report =>
        cases result' with
        | error fault =>
            have hfault := (herror' fault).mp rfl
            cases (herror fault).mpr (hrefusal.trans hfault)
        | ok report' =>
            exact .inr ⟨report, report', rfl, rfl, files_carriedOut hplain hdry hreal,
              lostWorkers_of_runScheduled hdry, lostWorkers_of_runScheduled hreal⟩
  · exact consulted_of_runScheduled rfl hdry
  · intro config hconfigure
    obtain ⟨-, -, hdryRun⟩ := configure_ok hconfigure
    exact ⟨config.writesNothing_prepare _, RunConfig.writesNothing_isolateFile hdryRun,
      config.writesNothing_conclude⟩

end Runs

/-- Two modules, the first of which cannot be written. -/
def MemoryTree.lockedSample : MemoryTree :=
  { MemoryTree.sample with
    failingWrites := [[.root, .name "p", .name "dist", .name "a.js"]] }

theorem RunConfig.discover_lockedSample :
    ((discover (RunOptions.sample.directoryBound MemoryTree.lockedSample)
        RunConfig.sample.outDir).run (World.start MemoryTree.lockedSample)).1 =
      .ok [⟨"/p/dist/a.js"⟩, ⟨"/p/dist/b.js"⟩] := by
  have hexplore : ((Walk.explore RunConfig.sample.outDir
      (RunOptions.sample.directoryBound MemoryTree.lockedSample)
      (.start RunConfig.sample.outDir)).run (World.start MemoryTree.lockedSample)).1.toOption =
      some ⟨[], [⟨"/p/dist/b.js"⟩, ⟨"/p/dist/a.js"⟩]⟩ := by decide +kernel
  rw [discover_of_explore hexplore]
  exact congrArg Except.ok (List.mergeSort_of_pairwise (by decide +kernel))

/-- The dry run reports a replacement where the real run cannot write. -/
theorem RunOptions.dry_run_predicts_sample :
    ∃ schedule schedule' report report' world world',
      { RunOptions.sample with dryRun := true }.runScheduled schedule MemoryTree.lockedSample =
        some (.ok report, world) ∧
      { RunOptions.sample with dryRun := false }.runScheduled schedule' MemoryTree.lockedSample =
        some (.ok report', world') ∧
      report.files =
        [⟨⟨"/p/dist/a.js"⟩, .replaced 1, []⟩, ⟨⟨"/p/dist/b.js"⟩, .unchanged, []⟩] ∧
      report'.files =
        [⟨⟨"/p/dist/a.js"⟩,
            .failed (.unwritable ⟨"/p/dist/a.js"⟩
              (.io "Failed to write /p/dist/a.js: read-only file system")), []⟩,
          ⟨⟨"/p/dist/b.js"⟩, .unchanged, []⟩] := by
  obtain ⟨schedule, hdry⟩ := { RunOptions.sample with dryRun := true }.exists_runScheduled
    MemoryTree.lockedSample
  obtain ⟨schedule', hreal⟩ := { RunOptions.sample with dryRun := false }.exists_runScheduled
    MemoryTree.lockedSample
  generalize { RunOptions.sample with dryRun := true }.run MemoryTree.lockedSample = dry at hdry
  generalize { RunOptions.sample with dryRun := false }.run MemoryTree.lockedSample = real at hreal
  obtain ⟨result, world⟩ := dry
  obtain ⟨result', world'⟩ := real
  obtain ⟨hpredicts, -⟩ := RunOptions.dry_run_predicts RunOptions.sample MemoryTree.lockedSample
    schedule schedule' result result' world world' nofun hdry hreal
  have hconfigure : { RunOptions.sample with dryRun := true }.configure =
      .ok { RunConfig.sample with dryRun := true } := by
    rw [RunOptions.configure_dryRun, RunOptions.configure_sample]
    rfl
  rcases hpredicts with ⟨fault, rfl, -⟩ | ⟨report, report', rfl, rfl, hfiles', -⟩
  · have hrefused := ((RunOptions.error_iff hdry).1 fault).mp rfl
    rw [RunOptions.refusal?_eq, hconfigure] at hrefused
    have hnone : { RunConfig.sample with dryRun := true }.refusal? MemoryTree.lockedSample =
      none := by decide +kernel
    cases hnone.symm.trans hrefused
  · obtain ⟨config, files, hconfig, hworks, hran⟩ :=
      (fun h => RunOptions.ran_of_runScheduled h hdry) nofun
    obtain rfl := Except.ok.inj (hconfigure.symm.trans hconfig)
    obtain rfl : files = [⟨"/p/dist/a.js"⟩, ⟨"/p/dist/b.js"⟩] := by
      rw [RunConfig.WorksOn, if_neg (by decide +kernel)] at hworks
      exact Except.ok.inj (hworks.symm.trans RunConfig.discover_lockedSample)
    have hfiles : report.files =
        [⟨⟨"/p/dist/a.js"⟩, .replaced 1, []⟩, ⟨⟨"/p/dist/b.js"⟩, .unchanged, []⟩] := by
      rw [hran.reports]
      decide +kernel
    refine ⟨_, _, report, report', world, world', hdry, hreal, hfiles, ?_⟩
    rw [hfiles', hfiles]
    decide +kernel

end Dealias
