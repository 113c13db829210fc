import Dealias.Proofs.Batch.File
import Dealias.Proofs.Batch.Pool
import Dealias.Proofs.Discovery
import Mathlib.Data.List.Nodup

/-!
# Every schedule ends alike

The workers of a pool share the tree and the cache, and act in any order.  What they end with does
not depend on the order: `Pool.Faithful.outcome_eq` and `Pool.Faithful.view_eq` give the reports and
the contents as functions of the tree at the start.

## Strategy

No two discovered files are at one place, and a file is at one time in one of three stages: it
waits, it is in work, or it is reported (`Pool.Accounts.everyFile`).  So between two requests for
one file only files at other places are written.  `Pool.Faithful` says what each file's content is
in each stage, and every act keeps it.
-/

namespace Dealias

namespace Pool

variable {config : RunConfig} {concurrency : Nat} {tree : MemoryTree} {root : Path}
  {files : List Path}

/-! ## Places of files -/

/-- The file in work with one worker is at another place than every file that waits, is in work with
another worker, or is reported. -/
theorem Accounts.location_ne {queue : WorkQueue} {front back : List Worker} {path : Path}
    {rest : Program TaskEnd} {reports : List FileReport} {world : World MemoryTree}
    (haccounts : Accounts config concurrency files
      ⟨queue, front ++ .busy path rest :: back, reports, world⟩)
    (hdistinct : (files.map Path.location).Nodup) :
    ∀ other, other ∈ queue.waiting ∨ (∃ rest, .busy other rest ∈ front ++ back) ∨
        other ∈ reports.map FileReport.path →
      other.location ≠ path.location := by
  -- the file in work in front of all others, which the batch holds once
  have hperm : (path :: (queue.waiting ++ (front ++ back).filterMap Worker.path? ++
      reports.map FileReport.path)).Perm files := by
    refine .trans ?_ haccounts.everyFile
    rw [List.perm_iff_count]
    intro file
    simp [inWork, Worker.path?, List.count_cons]
    omega
  have hnodup := (hperm.map Path.location).nodup_iff.mpr hdistinct
  rw [List.map_cons, List.nodup_cons] at hnodup
  intro other hother hsame
  refine hnodup.1 (List.mem_map.mpr ⟨other, ?_, hsame⟩)
  simp only [List.mem_append, List.mem_filterMap]
  rcases hother with hother | ⟨rest, hother⟩ | hother
  · exact .inl (.inl hother)
  · exact .inl (.inr ⟨.busy other rest, List.mem_append.mp hother, rfl⟩)
  · exact .inr hother

/-! ## Stages -/

/-- What is known about the world of a pool and about the files in each stage. -/
structure Faithful (config : RunConfig) (concurrency : Nat) (tree : MemoryTree) (files : List Path)
    (pool : Pool MemoryTree) : Prop where
  accounts : Accounts config concurrency files pool
  agrees : pool.world.Agrees tree
  /-- A file that waits is as it was. -/
  waiting : ∀ path ∈ pool.queue.waiting,
    pool.world.store.view path.location = tree.view path.location
  /-- A file in work is as its worker left it. -/
  busy : ∀ path rest, .busy path rest ∈ pool.workers →
    rest.Ensures tree path.location
      (fun now taskEnd => now = tree.viewAfter path (config.newContent? tree path) ∧
        taskEnd = .ok (config.reportIn tree path))
      (pool.world.store.view path.location)
  /-- A reported file is as it has to be, and so is its report. -/
  reported : ∀ report ∈ pool.reports, report = config.reportIn tree report.path ∧
    pool.world.store.view report.path.location =
      tree.viewAfter report.path (config.newContent? tree report.path)
  /-- What is no file of the batch is as it was. -/
  others : ∀ place, (∀ file ∈ files, file.location ≠ place) →
    pool.world.store.view place = tree.view place

theorem faithful_start {world : World MemoryTree} (hagrees : world.Agrees tree)
    (hview : ∀ place, world.store.view place = tree.view place) :
    Faithful config concurrency tree files (start concurrency files world) where
  accounts := accounts_start world
  agrees := hagrees
  waiting _ _ := hview _
  busy path rest hbusy := by cases List.eq_of_mem_replicate hbusy
  reported _ hreport := by cases hreport
  others place _ := hview place

/-- Every act keeps the files faithful. -/
theorem Faithful.step {pool next : Pool MemoryTree} {number : Nat}
    (hdiscovered : Discovered tree root files)
    (hfaithful : Faithful config concurrency tree files pool)
    (hstep : Step config.isolateFile pool number next) :
    Faithful config concurrency tree files next := by
  have haccounts := hfaithful.accounts.step hstep
  obtain ⟨haccounts', hagrees, hwaiting, hbusy, hreported, hothers⟩ := hfaithful
  cases hstep with
  | finish front back reports world =>
      refine ⟨haccounts, hagrees, nofun, fun path rest hmem => hbusy path rest ?_, hreported,
        hothers⟩
      simpa using hmem
  | take path waiting front back reports world =>
      obtain ⟨hpath, hwaiting'⟩ := List.forall_mem_cons.mp hwaiting
      have hfile : path ∈ files := haccounts'.everyFile.mem_iff.mp (by simp)
      -- a file that is taken is as it was, which is where its program starts
      refine ⟨haccounts, hagrees, hwaiting', fun other rest hmem => ?_, hreported, hothers⟩
      simp only [List.mem_append, List.mem_cons, Worker.busy.injEq] at hmem
      rcases hmem with hmem | ⟨rfl, rfl⟩ | hmem
      · exact hbusy other rest (by simp [hmem])
      · rw [hpath]
        exact config.ensures_isolateFile (hdiscovered.plain _ hfile) (hdiscovered.stored _ hfile)
      · exact hbusy other rest (by simp [hmem])
  | ask path request rest queue front back reports world =>
      have hfile : path ∈ files :=
        haccounts'.everyFile.mem_iff.mp (by simp [inWork, Worker.path?])
      obtain ⟨hanswer, hnext⟩ := hbusy path (.ask request rest) (by simp) world hagrees rfl
      have hrequest := (haccounts'.onTask (.busy path (.ask request rest)) (by simp)).request_eq
      have hapart := haccounts'.location_ne hdiscovered.distinct
      -- the request changes nothing at the places of all other files
      have hframe := fun place (hplace : place ≠ path.location) =>
        hagrees.view_answer (hdiscovered.plain path hfile) hrequest hplace
      refine ⟨haccounts, hanswer, fun other hother => ?_, fun other rest' hmem => ?_,
        fun report hreport => ?_, fun place hplace => ?_⟩
      · rw [← hwaiting other hother]
        exact hframe _ (hapart other (.inl hother))
      · simp only [List.mem_append, List.mem_cons, Worker.busy.injEq] at hmem
        rcases hmem with hmem | ⟨rfl, rfl⟩ | hmem
        · have hplace := hapart other (.inr (.inl ⟨rest', by simp [hmem]⟩))
          rw [hframe _ hplace]
          exact hbusy other rest' (by simp [hmem])
        · exact hnext
        · have hplace := hapart other (.inr (.inl ⟨rest', by simp [hmem]⟩))
          rw [hframe _ hplace]
          exact hbusy other rest' (by simp [hmem])
      · obtain ⟨hreport', hview⟩ := hreported report hreport
        refine ⟨hreport', ?_⟩
        rw [← hview]
        exact hframe _ (hapart _ (.inr (.inr (List.mem_map_of_mem hreport))))
      · rw [← hothers place hplace]
        exact hframe place (hplace path hfile).symm
  | report path report queue front back reports world =>
      obtain ⟨hview, hend⟩ := hbusy path (.done (.ok report)) (by simp)
      obtain rfl : report = config.reportIn tree path := Except.ok.inj hend
      refine ⟨haccounts, hagrees, hwaiting, fun other rest hmem => hbusy other rest ?_, ?_, hothers⟩
      · simp only [List.mem_append, List.mem_cons] at hmem ⊢
        rcases hmem with hmem | hmem | hmem
        · exact .inl hmem
        · cases hmem
        · exact .inr (.inr hmem)
      · refine List.forall_mem_cons.mpr ⟨?_, hreported⟩
        rw [config.path_reportIn]
        exact ⟨rfl, hview⟩
  | crash path message queue front back reports world =>
      -- a worker's program ends in a report also when the read crashes
      exact absurd (haccounts'.onTask (.busy path (.done (.error message))) (by simp))
        Worker.not_onTask_error

theorem faithful_of_follow? {pool next : Pool MemoryTree} {schedule : List Nat}
    (hdiscovered : Discovered tree root files)
    (hfaithful : Faithful config concurrency tree files pool)
    (hfollow : pool.follow? config.isolateFile schedule = some next) :
    Faithful config concurrency tree files next :=
  follow?_invariant (fun _ _ _ hfaithful hstep => hfaithful.step hdiscovered hstep) hfaithful
    hfollow

/-! ## The end -/

/-- When all workers have ended every file is reported. -/
theorem Faithful.perm_reports {pool : Pool MemoryTree}
    (hfaithful : Faithful config concurrency tree files pool)
    (hreturned : pool.hasReturned = true) :
    (pool.reports.map FileReport.path).Perm files := by
  obtain ⟨hwaiting, hinWork⟩ := hfaithful.accounts.empty_of_hasReturned hreturned
  have heveryFile := hfaithful.accounts.everyFile
  rwa [hwaiting, hinWork] at heveryFile

/-- **Reports.**  When all workers have ended, the reports are those of the discovered files, in
their order. -/
theorem Faithful.outcome_eq {pool : Pool MemoryTree} (hdiscovered : Discovered tree root files)
    (hfaithful : Faithful config concurrency tree files pool)
    (hreturned : pool.hasReturned = true) :
    pool.outcome.files = files.map (config.reportIn tree) := by
  have hreports : pool.reports = (pool.reports.map FileReport.path).map (config.reportIn tree) := by
    rw [List.map_map]
    conv => lhs; rw [← List.map_id pool.reports]
    exact List.map_congr_left fun report hreport => (hfaithful.reported report hreport).1
  have hperm : pool.outcome.files.Perm (files.map (config.reportIn tree)) :=
    calc List.Perm pool.outcome.files pool.reports.reverse := List.mergeSort_perm _ _
      List.Perm _ pool.reports := List.reverse_perm _
      List.Perm _ ((pool.reports.map FileReport.path).map (config.reportIn tree)) :=
        .of_eq hreports
      List.Perm _ (files.map (config.reportIn tree)) :=
        (hfaithful.perm_reports hreturned).map _
  -- two sorted lists with the same entries are one list, since no two files tie
  refine (Path.eq_of_sorted FileReport.path ?_ (FileReport.pairwise_mergeSort _) hperm.symm ?_).symm
  · simpa [List.pairwise_map] using hdiscovered.sorted
  · simp only [List.forall_mem_map, RunConfig.path_reportIn]
    intro one hone other hother hsame
    rw [List.inj_on_of_nodup_map hdiscovered.distinct hone hother hsame]

/-- **Contents.**  When all workers have ended, every discovered file is as the work on it makes it
from the tree at the start. -/
theorem Faithful.view_eq {pool : Pool MemoryTree}
    (hfaithful : Faithful config concurrency tree files pool) (hreturned : pool.hasReturned = true)
    {file : Path} (hfile : file ∈ files) :
    pool.world.store.view file.location =
      tree.viewAfter file (config.newContent? tree file) := by
  obtain ⟨report, hreport, rfl⟩ := List.mem_map.mp
    ((hfaithful.perm_reports hreturned).mem_iff.mpr hfile)
  exact (hfaithful.reported report hreport).2

end Pool
end Dealias
