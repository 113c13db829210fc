import Dealias.Batch

/-!
# Worker pools

Several workers share one queue and one world.  Each of them takes the next file, goes through the
program for it one request at a time, hands in the report and takes the next file, until it finds
the queue empty.  Between two steps of a worker any other worker may act.  A schedule lists who
acts, and it settles everything else.  A crash that its task does not contain ends a worker.
-/

namespace Dealias

/-- What a worker is doing. -/
inductive Worker where
  /-- It is about to take the next file. -/
  | idle
  /-- It works on a file, with this left to do. -/
  | busy (path : Path) (rest : Program TaskEnd)
  /-- It has ended, with the message of the crash that ended it if one did. -/
  | ended (crash? : Option String)

namespace Worker

/-- The file in work. -/
def path? : Worker → Option Path
  | busy path _ => some path
  | _ => none

/-- The message of the crash that ended a worker. -/
def crash? : Worker → Option String
  | ended crash? => crash?
  | _ => none

/-- Whether a worker has ended. -/
def hasEnded : Worker → Bool
  | ended _ => true
  | _ => false

end Worker

/-- The state of a pool.  Reports stand with the latest first. -/
structure Pool (Store : Type) where
  queue : WorkQueue
  workers : List Worker
  reports : List FileReport
  world : World Store

namespace Pool

variable {Store : Type} [FileStore Store]

/-- The number of workers for a batch. -/
def workerCount (concurrency : Nat) (files : List Path) : Nat :=
  min (effectiveConcurrency concurrency) files.length

/-- The pool before any file is taken. -/
def start (concurrency : Nat) (files : List Path) (world : World Store) : Pool Store where
  queue := ⟨files⟩
  workers := List.replicate (workerCount concurrency files) .idle
  reports := []
  world := world

/-- The files in work. -/
def inWork (pool : Pool Store) : List Path :=
  pool.workers.filterMap Worker.path?

/-- The state after a worker has acted, if it can act. -/
def step? (task : Path → Program TaskEnd) (pool : Pool Store) (number : Nat) :
    Option (Pool Store) :=
  match pool.workers[number]? with
  | none => none
  | some (.ended _) => none
  | some .idle =>
    match pool.queue.next? with
    | none => some { pool with workers := pool.workers.set number (.ended none) }
    | some (path, queue) =>
      some { pool with queue, workers := pool.workers.set number (.busy path (task path)) }
  | some (.busy path (.ask request next)) =>
    let (reply, world) := pool.world.answer request
    some { pool with workers := pool.workers.set number (.busy path (next reply)), world }
  | some (.busy _ (.done (.ok report))) =>
    some { pool with
      workers := pool.workers.set number .idle
      reports := report :: pool.reports }
  | some (.busy _ (.done (.error message))) =>
    some { pool with
      workers := pool.workers.set number (.ended (some message))
      world := (pool.world.answer (.emit (lostWorkerEvent message))).2 }

/-- The state after the workers have acted in the order of a schedule. -/
def follow? (task : Path → Program TaskEnd) : (schedule : List Nat) → Pool Store →
    Option (Pool Store)
  | [], pool => some pool
  | number :: schedule, pool => (pool.step? task number).bind (follow? task schedule)

/-- A batch returns when all workers have ended. -/
def hasReturned (pool : Pool Store) : Bool :=
  pool.workers.all Worker.hasEnded

/-- What a batch ends with. -/
def outcome (pool : Pool Store) : BatchOutcome :=
  .ofReports pool.reports.reverse ((pool.workers.filterMap Worker.crash?).map lostWorkerMessage)

end Pool
end Dealias
