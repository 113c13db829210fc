import Mathlib.Data.List.Forall2
import Dealias.Batch.Pool
import Dealias.Store.Memory
import Dealias.Proofs.Path.Order
import Dealias.Proofs.Program

/-!
# Every file once

A pool of workers acts in the order of a schedule.  This file says once what a single act can be
(`Pool.Step`), derives what every act preserves, and from it what holds after every schedule.

* `Pool.accounts_for_every_file`: at every moment the waiting files, the files in work and the
  reported files together are the files of the batch, no more of them are in work than there are
  workers, and once all workers have ended there is one report for each file, in ascending order,
  and no worker is lost.
* `Pool.exists_schedule`: from every state some schedule lets all workers end, so none of this is
  about pools that hang.
* `Pool.exists_schedule_processAll`: what a single worker does is done in one of the schedules.

## Strategy

An act changes one worker and leaves those in front of it and behind it alone, so `Pool.Step` splits
the list of workers there.  A crash never ends a worker, because the work on a file contains its own
crashes (`Worker.OnTask`).
-/

namespace Dealias
namespace Pool

variable {Store : Type} [FileStore Store]

/-! ## One act -/

/-- What the worker with a given number can do. -/
inductive Step (task : Path → Program TaskEnd) : Pool Store → Nat → Pool Store → Prop
  /-- It finds the queue empty and ends. -/
  | finish (front back : List Worker) (reports : List FileReport) (world : World Store) :
      Step task ⟨⟨[]⟩, front ++ .idle :: back, reports, world⟩ front.length
        ⟨⟨[]⟩, front ++ .ended none :: back, reports, world⟩
  /-- It takes the next file. -/
  | take (path : Path) (waiting : List Path) (front back : List Worker)
      (reports : List FileReport) (world : World Store) :
      Step task ⟨⟨path :: waiting⟩, front ++ .idle :: back, reports, world⟩ front.length
        ⟨⟨waiting⟩, front ++ .busy path (task path) :: back, reports, world⟩
  /-- It asks one request. -/
  | ask (path : Path) (request : Request) (next : request.Reply → Program TaskEnd)
      (queue : WorkQueue) (front back : List Worker) (reports : List FileReport)
      (world : World Store) :
      Step task ⟨queue, front ++ .busy path (.ask request next) :: back, reports, world⟩
        front.length
        ⟨queue, front ++ .busy path (next (world.answer request).1) :: back, reports,
          (world.answer request).2⟩
  /-- It hands in its report. -/
  | report (path : Path) (report : FileReport) (queue : WorkQueue) (front back : List Worker)
      (reports : List FileReport) (world : World Store) :
      Step task ⟨queue, front ++ .busy path (.done (.ok report)) :: back, reports, world⟩
        front.length ⟨queue, front ++ .idle :: back, report :: reports, world⟩
  /-- A crash ends it. -/
  | crash (path : Path) (message : String) (queue : WorkQueue) (front back : List Worker)
      (reports : List FileReport) (world : World Store) :
      Step task ⟨queue, front ++ .busy path (.done (.error message)) :: back, reports, world⟩
        front.length
        ⟨queue, front ++ .ended (some message) :: back, reports,
          (world.answer (.emit (lostWorkerEvent message))).2⟩

/-- What holds of all workers holds behind an act when the worker that acts keeps it. -/
theorem forall_mem_replace {holds : Worker → Prop} {front back : List Worker}
    {worker worker' : Worker} (hall : ∀ other ∈ front ++ worker :: back, holds other)
    (hworker : holds worker → holds worker') : ∀ other ∈ front ++ worker' :: back, holds other := by
  rw [List.forall_mem_append, List.forall_mem_cons] at hall ⊢
  exact ⟨hall.1, hworker hall.2.1, hall.2.2⟩

section Beside

variable {Holding : Type} {holds : Worker → Holding → Prop} {front back : List Worker}
  {worker : Worker}

/-- What the worker that acts holds stands between what the others hold. -/
theorem exists_of_forall₂ {holdings : List Holding}
    (hall : List.Forall₂ holds (front ++ worker :: back) holdings) :
    ∃ front' holding back', holdings = front' ++ holding :: back' ∧
      List.Forall₂ holds front front' ∧ holds worker holding ∧ List.Forall₂ holds back back' := by
  induction front generalizing holdings with
  | nil =>
      obtain ⟨holding, back', hworker, hback, rfl⟩ := List.forall₂_cons_left_iff.mp hall
      exact ⟨[], holding, back', rfl, .nil, hworker, hback⟩
  | cons first front ih =>
      obtain ⟨holding, others, hfirst, hothers, rfl⟩ := List.forall₂_cons_left_iff.mp hall
      obtain ⟨front', holding', back', rfl, hfront, hworker, hback⟩ := ih hothers
      exact ⟨holding :: front', holding', back', rfl, .cons hfirst hfront, hworker, hback⟩

/-- What the others hold, and the worker that has acted. -/
theorem forall₂_replace {front' back' : List Holding} {holding : Holding}
    (hfront : List.Forall₂ holds front front') (hworker : holds worker holding)
    (hback : List.Forall₂ holds back back') :
    List.Forall₂ holds (front ++ worker :: back) (front' ++ holding :: back') :=
  List.rel_append hfront (.cons hworker hback)

/-- What is known of all that a worker can hold that has ended. -/
theorem forall_mem_of_ended {workers : List Worker} {holdings : List Holding}
    {known : Holding → Prop} (hall : List.Forall₂ holds workers holdings)
    (hended : ∀ worker ∈ workers, worker.hasEnded = true)
    (hknown : ∀ crash? holding, holds (.ended crash?) holding → known holding) :
    ∀ holding ∈ holdings, known holding := by
  induction hall with
  | nil => exact nofun
  | @cons worker holding workers holdings hworker hothers ih =>
      obtain ⟨hfirst, hrest⟩ := List.forall_mem_cons.mp hended
      refine List.forall_mem_cons.mpr ⟨?_, ih hrest⟩
      cases worker with
      | idle => cases hfirst
      | busy path rest => cases hfirst
      | ended crash? => exact hknown crash? holding hworker

end Beside

variable {task : Path → Program TaskEnd}

/-- `Pool.step?` does what `Pool.Step` says and nothing else. -/
theorem step?_iff {pool next : Pool Store} {number : Nat} :
    pool.step? task number = some next ↔ Step task pool number next := by
  constructor
  · intro hstep
    obtain ⟨⟨waiting⟩, workers, reports, world⟩ := pool
    unfold step? at hstep
    cases hworker : workers[number]? with
    | none => simp [hworker] at hstep
    | some worker =>
        obtain ⟨front, back, rfl, rfl⟩ : ∃ front back, workers = front ++ worker :: back ∧
            number = front.length := by
          obtain ⟨hnumber, rfl⟩ := List.getElem?_eq_some_iff.mp hworker
          refine ⟨workers.take number, workers.drop (number + 1), ?_, ?_⟩
          · rw [List.getElem_cons_drop, List.take_append_drop]
          · rw [List.length_take, Nat.min_eq_left (Nat.le_of_lt hnumber)]
        simp only [hworker, List.set_append_right _ _ (Nat.le_refl _), Nat.sub_self,
          List.set_cons_zero] at hstep
        cases worker with
        | ended crash? => simp at hstep
        | idle =>
            cases waiting with
            | nil =>
                obtain rfl := Option.some.inj hstep
                exact .finish ..
            | cons path waiting =>
                obtain rfl := Option.some.inj hstep
                exact .take ..
        | busy path rest =>
            cases rest with
            | ask request next =>
                obtain rfl := Option.some.inj hstep
                exact .ask ..
            | done taskEnd =>
                cases taskEnd <;> obtain rfl := Option.some.inj hstep
                · exact .crash ..
                · exact .report ..
  · intro hstep
    cases hstep <;> simp [step?, WorkQueue.next?, List.set_append_right]

/-- What every act preserves holds after every schedule. -/
theorem follow?_invariant {holds : Pool Store → Prop}
    (hstep : ∀ pool number next, holds pool → Step task pool number next → holds next)
    {schedule : List Nat} {pool next : Pool Store} (hpool : holds pool)
    (hfollow : pool.follow? task schedule = some next) : holds next := by
  induction schedule generalizing pool with
  | nil => exact Option.some.inj hfollow ▸ hpool
  | cons number schedule ih =>
      obtain ⟨between, hbetween, hfollow⟩ := Option.bind_eq_some_iff.mp hfollow
      exact ih (hstep _ _ _ hpool (step?_iff.mp hbetween)) hfollow

theorem follow?_append (first second : List Nat) (pool : Pool Store) :
    pool.follow? task (first ++ second) =
      (pool.follow? task first).bind fun next => next.follow? task second := by
  induction first generalizing pool with
  | nil => rfl
  | cons number first ih =>
      rw [List.cons_append, follow?, follow?, Option.bind_assoc]
      congr 1
      funext next
      exact ih next

/-! ## All workers can end -/

/-- Some schedule leads from one state to another. -/
def Leads (task : Path → Program TaskEnd) (pool next : Pool Store) : Prop :=
  ∃ schedule, pool.follow? task schedule = some next

theorem Leads.refl (pool : Pool Store) : Leads task pool pool :=
  ⟨[], rfl⟩

theorem Leads.trans {first second third : Pool Store} (hfirst : Leads task first second)
    (hsecond : Leads task second third) : Leads task first third := by
  obtain ⟨schedule, hschedule⟩ := hfirst
  obtain ⟨schedule', hschedule'⟩ := hsecond
  exact ⟨schedule ++ schedule', by rw [follow?_append, hschedule, Option.bind_some, hschedule']⟩

theorem Step.leads {pool next : Pool Store} {number : Nat} (hstep : Step task pool number next) :
    Leads task pool next :=
  ⟨[number], by rw [follow?, step?_iff.mpr hstep]; rfl⟩

/-- A worker that is alone at work runs the program for its file in one go. -/
theorem leads_run (task : Path → Program TaskEnd) (path : Path) (rest : Program TaskEnd)
    (queue : WorkQueue) (front back : List Worker) (reports : List FileReport)
    (world : World Store) :
    Leads task ⟨queue, front ++ .busy path rest :: back, reports, world⟩
      ⟨queue, front ++ .busy path (.done (rest.run world).1) :: back, reports,
        (rest.run world).2⟩ := by
  induction rest generalizing world with
  | done taskEnd => exact Leads.refl _
  | ask request next ih => exact (Step.ask ..).leads.trans (ih _ _)

/-- A worker that is alone at work comes to the end of its file. -/
theorem leads_taskEnd (task : Path → Program TaskEnd) (path : Path) (rest : Program TaskEnd)
    (queue : WorkQueue) (front back : List Worker) (reports : List FileReport)
    (world : World Store) :
    ∃ worker reports' world', (worker = .idle ∨ worker.hasEnded = true) ∧
      Leads task ⟨queue, front ++ .busy path rest :: back, reports, world⟩
        ⟨queue, front ++ worker :: back, reports', world'⟩ := by
  have hrun := leads_run task path rest queue front back reports world
  generalize (rest.run world).1 = taskEnd at hrun
  cases taskEnd with
  | ok report => exact ⟨_, _, _, .inl rfl, hrun.trans (Step.report ..).leads⟩
  | error message => exact ⟨_, _, _, .inr rfl, hrun.trans (Step.crash ..).leads⟩

/-- A worker that acts alone ends, at the latest when the queue is empty. -/
theorem leads_ended (task : Path → Program TaskEnd) (worker : Worker) (waiting : List Path)
    (front back : List Worker) (reports : List FileReport) (world : World Store) :
    ∃ worker' waiting' reports' world', worker'.hasEnded = true ∧
      Leads task ⟨⟨waiting⟩, front ++ worker :: back, reports, world⟩
        ⟨⟨waiting'⟩, front ++ worker' :: back, reports', world'⟩ := by
  -- by induction on the waiting files, from a worker that is idle
  have hidle : ∀ reports world, ∃ worker' waiting' reports' world', worker'.hasEnded = true ∧
      Leads task ⟨⟨waiting⟩, front ++ .idle :: back, reports, world⟩
        (⟨⟨waiting'⟩, front ++ worker' :: back, reports', world'⟩ : Pool Store) := by
    induction waiting with
    | nil => exact fun _ _ => ⟨_, _, _, _, rfl, (Step.finish ..).leads⟩
    | cons path waiting ih =>
        intro reports world
        obtain ⟨worker, reports', world', rfl | hworker, hleads⟩ :=
          leads_taskEnd task path (task path) ⟨waiting⟩ front back reports world
        · obtain ⟨worker', waiting', reports'', world'', hworker', hleads'⟩ := ih reports' world'
          exact ⟨worker', waiting', reports'', world'', hworker',
            ((Step.take ..).leads.trans hleads).trans hleads'⟩
        · exact ⟨worker, waiting, reports', world', hworker, (Step.take ..).leads.trans hleads⟩
  cases worker with
  | idle => exact hidle reports world
  | ended crash? => exact ⟨.ended crash?, waiting, reports, world, rfl, Leads.refl _⟩
  | busy path rest =>
      obtain ⟨worker, reports', world', rfl | hworker, hleads⟩ :=
        leads_taskEnd task path rest ⟨waiting⟩ front back reports world
      · obtain ⟨worker', waiting', reports'', world'', hworker', hleads'⟩ := hidle reports' world'
        exact ⟨worker', waiting', reports'', world'', hworker', hleads.trans hleads'⟩
      · exact ⟨worker, waiting, reports', world', hworker, hleads⟩

/-- **Progress.**  From every state some schedule lets all workers end. -/
theorem exists_schedule (task : Path → Program TaskEnd) (pool : Pool Store) :
    ∃ schedule next, pool.follow? task schedule = some next ∧ next.hasReturned = true := by
  have hends : ∀ back front : List Worker, (∀ worker ∈ front, worker.hasEnded = true) →
      ∀ queue reports world, ∃ next : Pool Store,
        Leads task ⟨queue, front ++ back, reports, world⟩ next ∧ next.hasReturned = true := by
    intro back
    induction back with
    | nil => exact fun front hfront _ _ _ => ⟨_, Leads.refl _, by simpa [hasReturned] using hfront⟩
    | cons worker back ih =>
        intro front hfront queue reports world
        obtain ⟨worker', waiting', reports', world', hworker', hleads⟩ :=
          leads_ended task worker queue.waiting front back reports world
        obtain ⟨next, hleads', hnext⟩ := ih (front ++ [worker'])
          (List.forall_mem_append.mpr ⟨hfront, by simpa using hworker'⟩) ⟨waiting'⟩ reports' world'
        rw [List.append_assoc] at hleads'
        exact ⟨next, hleads.trans hleads', hnext⟩
  obtain ⟨next, ⟨schedule, hschedule⟩, hnext⟩ :=
    hends pool.workers [] (by simp) pool.queue pool.reports pool.world
  exact ⟨schedule, next, hschedule, hnext⟩

/-! ## One worker after the other -/

/-- The first worker can do all the work, as a single worker does it. -/
theorem leads_processFrom (config : RunConfig) (files : List Path) (back : List Worker)
    (reports : List FileReport) (world : World Store) :
    ∃ reports', BatchOutcome.ofReports reports'.reverse [] =
        ((config.processFrom reports files).run world).1 ∧
      Leads config.isolateFile ⟨⟨files⟩, .idle :: back, reports, world⟩
        ⟨⟨[]⟩, .idle :: back, reports', ((config.processFrom reports files).run world).2⟩ := by
  induction files generalizing reports world with
  | nil => exact ⟨reports, rfl, Leads.refl _⟩
  | cons path files ih =>
      obtain ⟨report, hreport⟩ := config.run_isolateFile path world
      obtain ⟨reports', houtcome, hleads⟩ :=
        ih (report :: reports) ((config.isolateFile path).run world).2
      have hfrom : (config.processFrom reports (path :: files)).run world =
          (config.processFrom (report :: reports) files).run
            ((config.isolateFile path).run world).2 := by
        rw [RunConfig.processFrom, Program.bind_eq, Program.run_bind, hreport]
      have htake : Leads config.isolateFile ⟨⟨path :: files⟩, .idle :: back, reports, world⟩
          ⟨⟨files⟩, .busy path (config.isolateFile path) :: back, reports, world⟩ :=
        (Step.take path files [] back reports world).leads
      have hrun := leads_run config.isolateFile path (config.isolateFile path) ⟨files⟩ [] back
        reports world
      rw [hreport] at hrun
      have hhand : Leads config.isolateFile
          ⟨⟨files⟩, .busy path (.done (.ok report)) :: back, reports,
            ((config.isolateFile path).run world).2⟩
          ⟨⟨files⟩, .idle :: back, report :: reports, ((config.isolateFile path).run world).2⟩ :=
        (Step.report path report ⟨files⟩ [] back reports _).leads
      rw [hfrom]
      exact ⟨reports', houtcome, ((htake.trans hrun).trans hhand).trans hleads⟩

/-- When the queue is empty the workers that wait for a file end. -/
theorem leads_drained (front : List Worker) (count : Nat) (reports : List FileReport)
    (world : World Store) :
    Leads task ⟨⟨[]⟩, front ++ List.replicate count .idle, reports, world⟩
      ⟨⟨[]⟩, front ++ List.replicate count (.ended none), reports, world⟩ := by
  induction count generalizing front with
  | zero => exact Leads.refl _
  | succ count ih =>
      have hrest := ih (front ++ [.ended none])
      rw [List.append_assoc, List.append_assoc] at hrest
      exact (Step.finish front (List.replicate count .idle) reports world).leads.trans hrest

/-- **A single worker.**  What a single worker does is done in one of the schedules of any number of
workers. -/
theorem exists_schedule_processAll (config : RunConfig) (concurrency : Nat) (files : List Path)
    (world : World Store) :
    ∃ schedule pool,
      (start concurrency files world).follow? config.isolateFile schedule = some pool ∧
      pool.hasReturned = true ∧ pool.outcome = ((config.processAll files).run world).1 ∧
      pool.world = ((config.processAll files).run world).2 := by
  cases files with
  | nil => exact ⟨[], _, rfl, by simp [start, hasReturned, workerCount], by
      simp [start, outcome, workerCount, RunConfig.processAll, RunConfig.processFrom, Program.run,
        Program.pure_eq], rfl⟩
  | cons path files =>
      obtain ⟨count, hcount⟩ : ∃ count, workerCount concurrency (path :: files) = count + 1 := by
        refine ⟨workerCount concurrency (path :: files) - 1, ?_⟩
        simp only [workerCount, effectiveConcurrency, List.length_cons]
        omega
      obtain ⟨reports, houtcome, hleads⟩ := leads_processFrom config (path :: files)
        (List.replicate count .idle) [] world
      obtain ⟨schedule, hschedule⟩ := hleads.trans (leads_drained [] (count + 1) reports
        ((config.processFrom [] (path :: files)).run world).2)
      have hstart : start concurrency (path :: files) world =
          ⟨⟨path :: files⟩, .idle :: List.replicate count .idle, [], world⟩ := by
        rw [start, hcount]
        rfl
      refine ⟨schedule, _, hstart ▸ hschedule, ?_, ?_, rfl⟩
      · simp [hasReturned, Worker.hasEnded]
      · rw [RunConfig.processAll, ← houtcome, outcome, List.nil_append,
          List.filterMap_replicate_of_none rfl]
        rfl

end Pool

/-! ## Containment -/

/-- What is left to do for a file in work: everything, or what is left behind the read, which ends
in a report about the file. -/
def Worker.OnTask (config : RunConfig) : Worker → Prop
  | .idle => True
  | .busy path rest => rest = config.isolateFile path ∨ rest.Within (Request.Settles path)
      fun taskEnd => ∃ report, taskEnd = .ok report ∧ report.path = path
  | .ended crash? => crash? = none

namespace Worker

variable {config : RunConfig}

theorem OnTask.ask {path : Path} {request : Request} {next : request.Reply → Program TaskEnd}
    (htask : OnTask config (.busy path (.ask request next))) (reply : request.Reply) :
    OnTask config (.busy path (next reply)) := by
  rcases htask with htask | htask
  · obtain ⟨next', heq, hends, -⟩ := config.isolateFile_eq path
    cases htask.trans heq
    exact .inr (hends reply)
  · exact .inr (htask.2 reply)

theorem OnTask.path_eq {path : Path} {report : FileReport}
    (htask : OnTask config (.busy path (.done (.ok report)))) : report.path = path := by
  rcases htask with htask | ⟨report', hreport, hpath⟩
  · obtain ⟨next, heq, -⟩ := config.isolateFile_eq path
    cases htask.trans heq
  · cases hreport
    exact hpath

/-- A crash does not come out of the work on a file. -/
theorem not_onTask_error {path : Path} {message : String} :
    ¬ OnTask config (.busy path (.done (.error message))) := by
  rintro (htask | ⟨report, hreport, -⟩)
  · obtain ⟨next, heq, -⟩ := config.isolateFile_eq path
    cases htask.trans heq
  · cases hreport

/-- What the worker on a file asks next. -/
theorem OnTask.request_eq {path : Path} {request : Request}
    {next : request.Reply → Program TaskEnd}
    (htask : OnTask config (.busy path (.ask request next))) :
    request = .read path ∨ request.Settles path := by
  rcases htask with htask | htask
  · obtain ⟨next', heq, -⟩ := config.isolateFile_eq path
    cases htask.trans heq
    exact .inl rfl
  · exact .inr htask.1

/-- A crash of the read makes the report that the file crashed. -/
theorem OnTask.crash {path asked : Path} {next : ReadResult → Program TaskEnd}
    (htask : OnTask config (.busy path (.ask (.read asked) next))) :
    asked = path ∧ ∀ message, (next (.crashed message)).Within (Request.Settles path)
      (· = .ok ⟨path, .failed (.crashed path message), []⟩) := by
  rcases htask with htask | ⟨hlook | ⟨content, hwrite⟩, -⟩
  · obtain ⟨next', heq, -, hcrash⟩ := config.isolateFile_eq path
    cases htask.trans heq
    exact ⟨rfl, hcrash⟩
  · cases hlook
  · cases hwrite

end Worker

/-! ## Accounting -/

namespace Pool

variable {Store : Type} [FileStore Store]

/-- What is known about a pool at every moment of a batch. -/
structure Accounts (config : RunConfig) (concurrency : Nat) (files : List Path)
    (pool : Pool Store) : Prop where
  /-- Every file of the batch is somewhere, as often as it is in the batch. -/
  everyFile : (pool.queue.waiting ++ pool.inWork ++ pool.reports.map FileReport.path).Perm files
  /-- No worker comes or goes. -/
  workers : pool.workers.length = workerCount concurrency files
  /-- A worker ends only when no file waits. -/
  drained : ∀ worker ∈ pool.workers, worker.hasEnded = true → pool.queue.waiting = []
  onTask : ∀ worker ∈ pool.workers, worker.OnTask config

variable {config : RunConfig} {concurrency : Nat} {files : List Path}

omit [FileStore Store] in
theorem accounts_start (world : World Store) :
    Accounts config concurrency files (start concurrency files world) where
  everyFile := by simp [start, inWork, List.filterMap_replicate, Worker.path?]
  workers := List.length_replicate
  drained worker hworker hended := by
    obtain rfl := List.eq_of_mem_replicate hworker
    cases hended
  onTask worker hworker := by
    obtain rfl := List.eq_of_mem_replicate hworker
    trivial

/-- Every act keeps the accounts. -/
theorem Accounts.step {pool next : Pool Store} {number : Nat}
    (haccounts : Accounts config concurrency files pool)
    (hstep : Step config.isolateFile pool number next) :
    Accounts config concurrency files next := by
  obtain ⟨heveryFile, hworkers, hdrained, honTask⟩ := haccounts
  cases hstep with
  | finish front back reports world =>
      refine ⟨?_, by simpa using hworkers, fun _ _ _ => rfl, ?_⟩
      · simpa [inWork, List.filterMap_cons, Worker.path?] using heveryFile
      · exact forall_mem_replace honTask fun _ => rfl
  | take path waiting front back reports world =>
      refine ⟨?_, by simpa using hworkers, ?_, ?_⟩
      · refine .trans ?_ heveryFile
        rw [List.perm_iff_count]
        intro file
        simp [inWork, List.filterMap_cons, Worker.path?, List.count_cons]
        omega
      · intro worker hworker hended
        -- a worker that has ended says that no file was waiting
        have hother : worker ∈ front ++ .idle :: back := by
          simp only [List.mem_append, List.mem_cons] at hworker ⊢
          rcases hworker with h | rfl | h
          · exact .inl h
          · cases hended
          · exact .inr (.inr h)
        cases hdrained worker hother hended
      · exact forall_mem_replace honTask fun _ => .inl rfl
  | ask path request rest queue front back reports world =>
      refine ⟨?_, by simpa using hworkers, ?_, ?_⟩
      · simpa [inWork, List.filterMap_cons, Worker.path?] using heveryFile
      · exact forall_mem_replace hdrained fun _ hended => absurd hended Bool.false_ne_true
      · exact forall_mem_replace honTask fun htask => htask.ask _
  | report path report queue front back reports world =>
      have hpath := (honTask (.busy path (.done (.ok report))) (by simp)).path_eq
      refine ⟨?_, by simpa using hworkers, ?_, ?_⟩
      · refine .trans ?_ heveryFile
        rw [List.perm_iff_count]
        intro file
        simp [inWork, List.filterMap_cons, Worker.path?, List.count_cons, hpath]
        omega
      · exact forall_mem_replace hdrained fun _ hended => absurd hended Bool.false_ne_true
      · exact forall_mem_replace honTask fun _ => trivial
  | crash path message queue front back reports world =>
      exact absurd (honTask (.busy path (.done (.error message))) (by simp))
        Worker.not_onTask_error

theorem accounts_of_follow? {schedule : List Nat} {pool next : Pool Store}
    (haccounts : Accounts config concurrency files pool)
    (hfollow : pool.follow? config.isolateFile schedule = some next) :
    Accounts config concurrency files next :=
  follow?_invariant (fun _ _ _ haccounts hstep => haccounts.step hstep) haccounts hfollow

omit [FileStore Store] in
theorem Accounts.length_inWork_le {pool : Pool Store}
    (haccounts : Accounts config concurrency files pool) :
    pool.inWork.length ≤ min (max concurrency 1) files.length :=
  Nat.le_trans (List.length_filterMap_le ..) (Nat.le_of_eq haccounts.workers)

omit [FileStore Store] in
/-- When all workers have ended no file waits or is in work. -/
theorem Accounts.empty_of_hasReturned {pool : Pool Store}
    (haccounts : Accounts config concurrency files pool) (hreturned : pool.hasReturned = true) :
    pool.queue.waiting = [] ∧ pool.inWork = [] := by
  have hended : ∀ worker ∈ pool.workers, worker.hasEnded = true := by
    simpa [hasReturned] using hreturned
  refine ⟨?_, ?_⟩
  · cases hworkers : pool.workers with
    | cons worker others =>
        have hworker : worker ∈ pool.workers := hworkers ▸ List.mem_cons_self ..
        exact haccounts.drained worker hworker (hended worker hworker)
    | nil =>
        -- there are workers unless there are no files
        have hcount := haccounts.workers
        rw [hworkers, List.length_nil, workerCount, effectiveConcurrency] at hcount
        have hfiles : files = [] := List.length_eq_zero_iff.mp (by omega)
        have heveryFile := haccounts.everyFile
        rw [hfiles] at heveryFile
        have hempty := heveryFile.eq_nil
        simp only [List.append_eq_nil_iff] at hempty
        exact hempty.1.1
  · refine List.filterMap_eq_nil_iff.mpr fun worker hworker => ?_
    have hend := hended worker hworker
    cases worker <;> first | rfl | cases hend

omit [FileStore Store] in
/-- No worker is lost. -/
theorem Accounts.crash?_eq_nil {pool : Pool Store}
    (haccounts : Accounts config concurrency files pool) :
    pool.workers.filterMap Worker.crash? = [] := by
  refine List.filterMap_eq_nil_iff.mpr fun worker hworker => ?_
  have htask := haccounts.onTask worker hworker
  cases worker with
  | idle => rfl
  | busy path rest => rfl
  | ended crash? => exact htask

/-- **Every file once.**  However the workers of a batch take turns, and whatever their requests are
answered, every file of the batch is waiting, in work or reported, as often as it is in the batch,
and no more files are in work than asked for.  When all workers have ended, the reports are one for
each file in ascending order, and no worker is lost: a read that crashes makes the report that its
file crashed.  From every such moment the workers can go on until all have ended. -/
theorem accounts_for_every_file (config : RunConfig) (concurrency : Nat) (files : List Path)
    (world : World Store) (schedule : List Nat) (pool : Pool Store)
    (hpool : (start concurrency files world).follow? config.isolateFile schedule = some pool) :
    (pool.queue.waiting ++ pool.inWork ++ pool.reports.map FileReport.path).Perm files ∧
      pool.inWork.length ≤ min (max concurrency 1) files.length ∧
      (pool.hasReturned = true →
        pool.queue.waiting = [] ∧ pool.inWork = [] ∧
          (pool.outcome.files.map FileReport.path).Perm files ∧
          pool.outcome.files.Pairwise (fun first second => first.path.le second.path = true) ∧
          pool.outcome.lostWorkers = []) ∧
      (∀ path asked next, Worker.busy path (.ask (.read asked) next) ∈ pool.workers →
        asked = path ∧ ∀ message, (next (.crashed message)).Within (Request.Settles path)
          (· = .ok ⟨path, .failed (.crashed path message), []⟩)) ∧
      ∃ rest returned, pool.follow? config.isolateFile rest = some returned ∧
        returned.hasReturned = true := by
  have haccounts := accounts_of_follow? (accounts_start world) hpool
  refine ⟨haccounts.everyFile, haccounts.length_inWork_le, fun hreturned => ?_, ?_,
    exists_schedule config.isolateFile pool⟩
  · obtain ⟨hwaiting, hinWork⟩ := haccounts.empty_of_hasReturned hreturned
    refine ⟨hwaiting, hinWork, ?_, FileReport.pairwise_mergeSort _, ?_⟩
    · have heveryFile := haccounts.everyFile
      rw [hwaiting, hinWork] at heveryFile
      refine .trans ?_ heveryFile
      exact ((List.mergeSort_perm _ _).trans (List.reverse_perm _)).map FileReport.path
    · rw [outcome, BatchOutcome.ofReports, haccounts.crash?_eq_nil]
      rfl
  · exact fun path asked next hbusy => (haccounts.onTask _ hbusy).crash

/-- Two workers, a file whose read crashes, and a file that is missing. -/
theorem accounts_for_a_crash :
    ∃ pool : Pool MemoryTree,
      (start 2 [⟨"/a.js"⟩, ⟨"/b.js"⟩] (World.start
        { MemoryTree.empty ⟨"/"⟩ with crashingReads := [[.root, .name "a.js"]] })).follow?
          (RunConfig.isolateFile ⟨⟨"/"⟩, ⟨"."⟩, none, ⟨[]⟩, 2, false⟩)
          [0, 1, 0, 1, 1, 0, 1, 0, 0, 1] = some pool ∧
      (pool.outcome.files.map FileReport.path).Perm [⟨"/a.js"⟩, ⟨"/b.js"⟩] ∧
      pool.outcome.lostWorkers = [] := by
  have hreturns : ((start 2 [⟨"/a.js"⟩, ⟨"/b.js"⟩] (World.start
      { MemoryTree.empty ⟨"/"⟩ with crashingReads := [[.root, .name "a.js"]] })).follow?
        (RunConfig.isolateFile ⟨⟨"/"⟩, ⟨"."⟩, none, ⟨[]⟩, 2, false⟩)
        [0, 1, 0, 1, 1, 0, 1, 0, 0, 1]).any Pool.hasReturned = true := by decide +kernel
  obtain ⟨pool, hpool, hreturned⟩ := (Option.any_eq_true _ _).mp hreturns
  obtain ⟨-, -, hends, -⟩ := accounts_for_every_file _ _ _ _ _ pool hpool
  obtain ⟨-, -, hfiles, -, hlost⟩ := hends hreturned
  exact ⟨pool, hpool, hfiles, hlost⟩

end Pool
end Dealias
