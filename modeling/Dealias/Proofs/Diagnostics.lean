import Mathlib.Data.List.Count
import Mathlib.Data.List.Perm.Basic
import Dealias.Proofs.Batch.Telling
import Dealias.Proofs.Run

/-!
# Diagnostics and report

A run tells events while its workers take turns, and returns a report that is put together from the
reports about the single files.  `RunOptions.diagnostics_agree` says that the two are two views of
the same: whatever the store answers and whatever the schedule, each unresolved import of the report
has its warning, each failed file its warning or failure, and there are no others.

## Strategy

Each worker has told a part of the events of the report that it will hand in
(`Worker.HasTold`).  So at every moment the log is, up to the order, what was in it before the
batch, the events of the reports so far, and what the workers have told for the files in work
(`Pool.Logged`).  When all workers have ended, nothing is in work.
-/

namespace Dealias

/-! ## Pools -/

/-- Whether a worker has told these events for the file in work: with what it still tells they are
the events of the report that it ends in. -/
def Worker.HasTold (table : AliasTable) : Worker → List Event → Prop
  | .busy _ rest, told => rest.Tells fun later taskEnd =>
      ∃ report, taskEnd = .ok report ∧ told ++ later = report.events ∧ report.IsMissed table
  | _, told => told = []

namespace Pool

variable {Store : Type} [FileStore Store] {config : RunConfig} {concurrency : Nat}
  {before : List Event} {told : List (List Event)} {pool next : Pool Store}

/-- What is known about the log of a pool, given what was in it before the batch and what the
workers have told for the files in work. -/
structure Logged (config : RunConfig) (before : List Event) (pool : Pool Store)
    (told : List (List Event)) : Prop where
  workers : List.Forall₂ (Worker.HasTold config.aliases) pool.workers told
  log : pool.world.log.Perm (told.flatten ++ pool.reports.flatMap FileReport.events ++ before)
  missed : ∀ report ∈ pool.reports, report.IsMissed config.aliases

omit [FileStore Store] in
theorem logged_start (concurrency : Nat) (files : List Path) (world : World Store) :
    Logged config world.log (start concurrency files world)
      (List.replicate (workerCount concurrency files) []) where
  workers := by
    show List.Forall₂ _ (List.replicate (workerCount concurrency files) Worker.idle) _
    induction workerCount concurrency files with
    | zero => exact .nil
    | succ count ih => exact .cons rfl ih
  log := by simp [start]
  missed := nofun

/-- Every act keeps the log in step with the reports. -/
theorem Logged.step {number : Nat} (hlogged : Logged config before pool told)
    (hstep : Step config.isolateFile pool number next) :
    ∃ told', Logged config before next told' := by
  obtain ⟨hworkers, hlog, hmissed⟩ := hlogged
  cases hstep with
  | finish front back reports world =>
      obtain ⟨front', told, back', rfl, hfront, hworker, hback⟩ := exists_of_forall₂ hworkers
      exact ⟨_, forall₂_replace hfront hworker hback, hlog, hmissed⟩
  | take path waiting front back reports world =>
      obtain ⟨front', told, back', rfl, hfront, hworker, hback⟩ := exists_of_forall₂ hworkers
      obtain rfl : told = [] := hworker
      exact ⟨_, forall₂_replace hfront (config.tells_isolateFile path) hback, hlog, hmissed⟩
  | ask path request rest queue front back reports world =>
      obtain ⟨front', told, back', rfl, hfront, hworker, hback⟩ := exists_of_forall₂ hworkers
      refine ⟨front' ++ (told ++ request.told) :: back', forall₂_replace hfront ?_ hback, ?_,
        hmissed⟩
      · refine (hworker (world.answer request).1).mono ?_
        rintro later taskEnd ⟨report, rfl, hevents, hreport⟩
        exact ⟨report, rfl, (List.append_assoc ..).trans hevents, hreport⟩
      · show (world.answer request).2.log.Perm _
        rw [World.log_answer, List.perm_iff_count]
        intro event
        have hcount := List.perm_iff_count.mp hlog event
        simp only [List.flatten_append, List.flatten_cons, List.count_append] at hcount ⊢
        omega
  | report path report queue front back reports world =>
      obtain ⟨front', told, back', rfl, hfront, hworker, hback⟩ := exists_of_forall₂ hworkers
      obtain ⟨_, hreport, hevents, hmiss⟩ := hworker
      obtain rfl := Except.ok.inj hreport
      rw [List.append_nil] at hevents
      subst hevents
      refine ⟨front' ++ [] :: back', forall₂_replace hfront rfl hback, ?_,
        List.forall_mem_cons.mpr ⟨hmiss, hmissed⟩⟩
      rw [List.perm_iff_count] at hlog ⊢
      intro event
      have hcount := hlog event
      simp only [List.flatten_append, List.flatten_cons, List.flatMap_cons, List.count_append,
        List.count_nil] at hcount ⊢
      omega
  | crash path message queue front back reports world =>
      obtain ⟨front', told, back', rfl, hfront, hworker, hback⟩ := exists_of_forall₂ hworkers
      obtain ⟨report, hreport, -⟩ := hworker
      cases hreport

theorem exists_logged_of_follow? {schedule : List Nat} (hlogged : Logged config before pool told)
    (hfollow : pool.follow? config.isolateFile schedule = some next) :
    ∃ told', Logged config before next told' := by
  have hstep : ∀ (pool : Pool Store) number next, (∃ told, Logged config before pool told) →
      Step config.isolateFile pool number next → ∃ told, Logged config before next told := by
    rintro pool number next ⟨told, hlogged⟩ hstep
    exact hlogged.step hstep
  exact follow?_invariant hstep ⟨told, hlogged⟩ hfollow

omit [FileStore Store] in
/-- When all workers have ended, the log holds the events of the reports and what was in it before
the batch. -/
theorem Logged.log_of_hasReturned (hlogged : Logged config before pool told)
    (hreturned : pool.hasReturned = true) :
    pool.world.log.Perm (pool.outcome.files.flatMap FileReport.events ++ before) := by
  have hended : ∀ worker ∈ pool.workers, worker.hasEnded = true := by
    simpa [hasReturned] using hreturned
  have hnothing : told.flatten = [] :=
    List.flatten_eq_nil_iff.mpr (forall_mem_of_ended hlogged.workers hended fun _ _ htold => htold)
  have hlog := hlogged.log
  rw [hnothing, List.nil_append] at hlog
  refine hlog.trans (List.Perm.append_right _ ?_)
  exact ((List.reverse_perm _).symm.trans (List.mergeSort_perm _ _).symm).flatMap_right _

end Pool

/-! ## Reports -/

/-- The events that go with the report about a run. -/
def RunReport.events (report : RunReport) : List Event :=
  report.unresolved.map (fun missing => unresolvedEvent missing.2.specifier missing.1) ++
    report.faults.map FileFault.event

theorem RunReport.perm_events (report : RunReport) :
    (report.files.flatMap FileReport.events).Perm report.events := by
  have hunresolved : report.unresolved.map
      (fun missing => unresolvedEvent missing.2.specifier missing.1) =
        report.files.flatMap fun file => unresolvedEvents file.path file.unresolved := by
    simp only [unresolved, List.map_flatMap, List.map_map]
    rfl
  have hfaults : report.faults.map FileFault.event =
      report.files.flatMap fun file => file.outcome.events := by
    simp only [faults, List.filterMap_eq_flatMap_toList, List.map_flatMap]
    rfl
  rw [events, hunresolved, hfaults]
  exact (List.flatMap_append_perm ..).symm

/-- Whether a fault is a crash. -/
def FileFault.isCrash : FileFault → Bool
  | crashed _ _ => true
  | _ => false

/-- The warnings or failures about faults, told by their messages. -/
theorem FileFault.count_events (faults : List FileFault) (crash : Bool) (message : String) :
    (faults.map FileFault.event).count ⟨if crash then .failure else .warning, message, []⟩ =
      ((faults.filter fun fault => fault.isCrash == crash).map FileFault.message).count
        message := by
  induction faults with
  | nil => rfl
  | cons fault faults ih =>
      have hevent : fault.event =
          ⟨if fault.isCrash then .failure else .warning, fault.message, []⟩ := by
        cases fault <;> rfl
      rw [List.map_cons, List.count_cons, ih, List.filter_cons, hevent]
      cases fault.isCrash <;> cases crash <;> simp [List.count_cons]

theorem unresolvedEvent_injective :
    Function.Injective fun missing : String × Path => unresolvedEvent missing.1 missing.2 := by
  rintro ⟨specifier, ⟨file⟩⟩ ⟨specifier', ⟨file'⟩⟩ hsame
  have hfields := congrArg Event.fields hsame
  simp only [unresolvedEvent, List.cons.injEq, Prod.mk.injEq, true_and, and_true] at hfields
  obtain ⟨rfl, rfl⟩ := hfields
  rfl

/-- The warnings about imports that lead nowhere among the events of a report. -/
theorem RunReport.count_unresolvedEvent (report : RunReport) (specifier : String) (file : Path) :
    report.events.count (unresolvedEvent specifier file) =
      (report.unresolved.map fun missing => (missing.2.specifier, missing.1)).count
        (specifier, file) := by
  have hfaults :
      (report.faults.map FileFault.event).count (unresolvedEvent specifier file) = 0 := by
    refine List.count_eq_zero.mpr fun hmem => ?_
    obtain ⟨fault, -, hevent⟩ := List.mem_map.mp hmem
    cases congrArg Event.fields hevent
  rw [events, List.count_append, hfaults, Nat.add_zero,
    ← List.count_map_of_injective _ _ unresolvedEvent_injective, List.map_map]
  rfl

/-- The events about faults among the events of a report. -/
theorem RunReport.count_faultEvent (report : RunReport) (crash : Bool) (message : String) :
    report.events.count ⟨if crash then .failure else .warning, message, []⟩ =
      ((report.faults.filter fun fault => fault.isCrash == crash).map FileFault.message).count
        message := by
  have hunresolved : (report.unresolved.map fun missing =>
      unresolvedEvent missing.2.specifier missing.1).count
        ⟨if crash then .failure else .warning, message, []⟩ = 0 := by
    refine List.count_eq_zero.mpr fun hmem => ?_
    obtain ⟨missing, -, hevent⟩ := List.mem_map.mp hmem
    cases congrArg Event.fields hevent
  rw [events, List.count_append, hunresolved, Nat.zero_add, FileFault.count_events]

/-- A specifier that the catch-all alias takes is no unresolved import. -/
theorem RunReport.specifier_ne_of_isCatchAll {report : RunReport} {table : AliasTable}
    (hmissed : ∀ file ∈ report.files, file.IsMissed table) {specifier remainder : String}
    {entry : Alias} (hmatch : table.match? specifier = some (entry, remainder))
    (hcatchAll : entry.isCatchAll = true) :
    ∀ missing ∈ report.unresolved, missing.2.specifier ≠ specifier := by
  rintro _ hmissing rfl
  obtain ⟨file, hfile, hpair⟩ := List.mem_flatMap.mp hmissing
  obtain ⟨missing, hmem, rfl⟩ := List.mem_map.mp hpair
  obtain ⟨entry', remainder', hmatch', hspecific, -⟩ := hmissed file hfile missing hmem
  obtain ⟨rfl, -⟩ := Prod.mk.inj (Option.some.inj (hmatch'.symm.trans hmatch))
  rw [hspecific] at hcatchAll
  cases hcatchAll

/-! ## Runs -/

section Runs

variable {Store : Type} [FileStore Store] {schedule : List Nat} {store : Store}
  {report : RunReport} {world : World Store}

/-- The log of a run that is not refused: events aside, and those of the report. -/
theorem RunConfig.log_of_runScheduled {config : RunConfig} {budget : Nat}
    (hrun : config.runScheduled budget schedule store = some (.ok report, world)) :
    ∃ aside, (∀ event ∈ aside, event.IsAside) ∧ world.log.Perm (aside ++ report.events) ∧
      ∀ file ∈ report.files, file.IsMissed config.aliases := by
  obtain ⟨aside, hlog, haside⟩ :=
    ((config.within_prepare budget).mono (fun _ => And.right) fun _ => id).log_run
      (World.start store)
  rw [show (World.start store).log = [] from rfl, List.append_nil] at hlog
  rcases RunConfig.runScheduled_cases hrun with ⟨fault, -, hresult, -⟩ |
    ⟨-, hresult, rfl⟩ | ⟨files, pool, -, hpool, hreturned, hresult, rfl⟩
  · cases hresult
  · obtain rfl := Except.ok.inj hresult
    exact ⟨aside, haside, by rw [hlog]; simp [RunReport.events, RunReport.unresolved,
      RunReport.faults, RunReport.empty], nofun⟩
  · obtain rfl := Except.ok.inj hresult
    obtain ⟨told, hlogged⟩ := Pool.exists_logged_of_follow?
      (Pool.logged_start config.concurrency files _) hpool
    have hperm := hlogged.log_of_hasReturned hreturned
    rw [hlog] at hperm
    generalize hreport : ((config.conclude pool.outcome).run pool.world).1 = report
    have hfiles : pool.outcome.files = report.files := hreport ▸ rfl
    have hfinish : ((config.conclude pool.outcome).run pool.world).2.log =
        report.finishEvent :: pool.world.log := hreport ▸ rfl
    refine ⟨report.finishEvent :: aside, List.forall_mem_cons.mpr ⟨.inl rfl, haside⟩, ?_, ?_⟩
    · rw [hfinish]
      rw [hfiles] at hperm
      exact (hperm.trans (List.perm_append_comm.trans (report.perm_events.append_left _))).cons _
    · intro file hfile
      rw [← hfiles] at hfile
      refine hlogged.missed file ?_
      exact List.mem_reverse.mp ((List.mergeSort_perm _ _).mem_iff.mp hfile)

/-- What is not aside is in the log as often as among the events of the report. -/
theorem RunConfig.count_log {config : RunConfig} {budget : Nat}
    (hrun : config.runScheduled budget schedule store = some (.ok report, world)) {event : Event}
    (hevent : ¬ event.IsAside) : world.log.count event = report.events.count event := by
  obtain ⟨aside, haside, hlog, -⟩ := RunConfig.log_of_runScheduled hrun
  have hnone : aside.count event = 0 := List.count_eq_zero.mpr fun hmem => hevent (haside _ hmem)
  rw [hlog.count_eq, List.count_append, hnone, Nat.zero_add]

theorem not_isAside_unresolvedEvent (specifier : String) (file : Path) :
    ¬ (unresolvedEvent specifier file).IsAside := by
  rintro (hinfo | ⟨path, fault, hskipped | hskipped⟩)
  · cases hinfo
  all_goals
    simpa [unresolvedEvent, skippedDirectory, skippedEntry] using congrArg Event.fields hskipped

theorem not_isAside_faultEvent (crash : Bool) (message : String) :
    ¬ (Event.mk (if crash then .failure else .warning) message []).IsAside := by
  rintro (hinfo | ⟨path, fault, hskipped | hskipped⟩)
  · cases crash <;> cases hinfo
  all_goals cases congrArg Event.fields hskipped

/-- **Diagnostics and report agree.**  Whatever the store and the schedule, when a run is not
refused, the warnings that no source file was found are, as specifiers with files, the unresolved
imports of the report, one for each; the warnings about faults are those of the files that failed
without a crash, and the failures those of the files that crashed, one for each, with the message of
the fault; and there is no other event above information except that discovery leaves something
out.  A specifier that the catch-all alias takes has neither a warning nor an unresolved import. -/
theorem RunOptions.diagnostics_agree (options : RunOptions)
    (hrun : options.runScheduled schedule store = some (.ok report, world)) :
    (∀ specifier file, world.log.count (unresolvedEvent specifier file) =
      (report.unresolved.map fun missing => (missing.2.specifier, missing.1)).count
        (specifier, file)) ∧
    (∀ message, world.log.count ⟨.warning, message, []⟩ =
      ((report.faults.filter fun fault => !fault.isCrash).map FileFault.message).count message) ∧
    (∀ message, world.log.count ⟨.failure, message, []⟩ =
      ((report.faults.filter FileFault.isCrash).map FileFault.message).count message) ∧
    (∀ event ∈ world.log, event.level = .info ∨
      (∃ path fault, event = skippedDirectory path fault ∨ event = skippedEntry path fault) ∨
      (∃ missing ∈ report.unresolved, event = unresolvedEvent missing.2.specifier missing.1) ∨
      ∃ fault ∈ report.faults, event = fault.event) ∧
    ∃ config, options.configure = .ok config ∧
      ∀ specifier entry remainder,
        config.aliases.match? specifier = some (entry, remainder) → entry.isCatchAll = true →
          ∀ file, (∀ pattern, (file, ⟨specifier, pattern⟩) ∉ report.unresolved) ∧
            unresolvedEvent specifier file ∉ world.log := by
  unfold runScheduled at hrun
  split at hrun
  · cases (Prod.mk.inj (Option.some.inj hrun)).1
  · rename_i config hconfigure
    obtain ⟨aside, haside, hlog, hmissed⟩ := RunConfig.log_of_runScheduled hrun
    refine ⟨fun specifier file => ?_, fun message => ?_, fun message => ?_, fun event hevent => ?_,
      config, hconfigure, fun specifier entry remainder hmatch hcatchAll file => ?_⟩
    · rw [RunConfig.count_log hrun (not_isAside_unresolvedEvent specifier file),
        report.count_unresolvedEvent]
    · have hcount := (RunConfig.count_log hrun (not_isAside_faultEvent false message)).trans
        (report.count_faultEvent false message)
      simpa using hcount
    · have hcount := (RunConfig.count_log hrun (not_isAside_faultEvent true message)).trans
        (report.count_faultEvent true message)
      simpa using hcount
    · rcases List.mem_append.mp (hlog.mem_iff.mp hevent) with hmem | hmem
      · exact (haside event hmem).imp_right .inl
      · rcases List.mem_append.mp hmem with hmem | hmem
        · obtain ⟨missing, hmissing, rfl⟩ := List.mem_map.mp hmem
          exact .inr (.inr (.inl ⟨missing, hmissing, rfl⟩))
        · obtain ⟨fault, hfault, rfl⟩ := List.mem_map.mp hmem
          exact .inr (.inr (.inr ⟨fault, hfault, rfl⟩))
    · have hother := RunReport.specifier_ne_of_isCatchAll hmissed hmatch hcatchAll
      refine ⟨fun pattern hmem => hother _ hmem rfl, fun hmem => ?_⟩
      have hcount := List.count_pos_iff.mpr hmem
      rw [RunConfig.count_log hrun (not_isAside_unresolvedEvent specifier file),
        report.count_unresolvedEvent, List.count_pos_iff] at hcount
      obtain ⟨missing, hmissing, hpair⟩ := List.mem_map.mp hcount
      exact hother missing hmissing (Prod.mk.inj hpair).1

end Runs

/-- A module that imports one that is not there, and one whose read crashes. -/
def MemoryTree.stray : MemoryTree :=
  { ((MemoryTree.empty ⟨"/"⟩).putFile [.root, .name "p", .name "dist", .name "a.js"]
      "import '@/x'".toUTF8).putFile [.root, .name "p", .name "dist", .name "b.js"] "".toUTF8 with
    crashingReads := [[.root, .name "p", .name "dist", .name "b.js"]] }

theorem RunConfig.discover_stray :
    ((discover (RunOptions.sample.directoryBound MemoryTree.stray) RunConfig.sample.outDir).run
      (World.start MemoryTree.stray)).1 = .ok [⟨"/p/dist/a.js"⟩, ⟨"/p/dist/b.js"⟩] := by
  have hexplore : ((Walk.explore RunConfig.sample.outDir
      (RunOptions.sample.directoryBound MemoryTree.stray) (.start RunConfig.sample.outDir)).run
        (World.start MemoryTree.stray)).1.toOption =
      some ⟨[], [⟨"/p/dist/b.js"⟩, ⟨"/p/dist/a.js"⟩]⟩ := by decide +kernel
  rw [discover_of_explore hexplore]
  exact congrArg Except.ok (List.mergeSort_of_pairwise (by decide +kernel))

/-- The missing module has its warning and the crash its failure. -/
theorem RunOptions.diagnostics_agree_sample :
    ∃ schedule report world,
      RunOptions.sample.runScheduled schedule MemoryTree.stray = some (.ok report, world) ∧
      world.log.count (unresolvedEvent "@/x" ⟨"/p/dist/a.js"⟩) = 1 ∧
      world.log.count ⟨.failure,
        "Processing /p/dist/b.js panicked: simulated crash while reading /p/dist/b.js", []⟩ = 1 := by
  have hprepare : ((RunConfig.sample.prepare
      (RunOptions.sample.directoryBound MemoryTree.stray)).run (World.start MemoryTree.stray)).1 =
        .ok (some [⟨"/p/dist/a.js"⟩, ⟨"/p/dist/b.js"⟩]) :=
    RunConfig.prepare_of_discover (by decide +kernel) (by decide +kernel) RunConfig.discover_stray
  obtain ⟨schedule, pool, hpool, hreturned⟩ := Pool.exists_schedule RunConfig.sample.isolateFile
    (Pool.start 2 [⟨"/p/dist/a.js"⟩, ⟨"/p/dist/b.js"⟩]
      ((RunConfig.sample.prepare (RunOptions.sample.directoryBound MemoryTree.stray)).run
        (World.start MemoryTree.stray)).2)
  have hrun := (RunOptions.runScheduled_of_configure RunOptions.configure_sample schedule
    MemoryTree.stray).trans (RunConfig.runScheduled_eq hprepare hpool hreturned)
  have hplain : ∀ place, MemoryTree.stray.IsPlain place := fun _ _ => nofun
  obtain ⟨config, files, hconfigure, hfiles, hran⟩ :=
    RunOptions.ran_of_runScheduled (hplain _) hrun
  obtain rfl := Except.ok.inj (RunOptions.configure_sample.symm.trans hconfigure)
  obtain rfl : files = [⟨"/p/dist/a.js"⟩, ⟨"/p/dist/b.js"⟩] := by
    rw [RunConfig.WorksOn, if_neg (by decide +kernel)] at hfiles
    exact Except.ok.inj (hfiles.symm.trans RunConfig.discover_stray)
  obtain ⟨hunresolved, -, hcrashes, -⟩ := RunOptions.sample.diagnostics_agree hrun
  have hreports := hran.reports
  refine ⟨schedule, _, _, hrun, (hunresolved _ _).trans ?_, (hcrashes _).trans ?_⟩
  · rw [RunReport.unresolved, hreports]
    decide +kernel
  · rw [RunReport.faults, hreports]
    decide +kernel

end Dealias
