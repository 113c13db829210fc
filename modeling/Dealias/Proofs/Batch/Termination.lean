import Dealias.Proofs.Batch.Pool
import Mathlib.Logic.Hydra

/-!
# Every schedule ends

`Pool.exists_bound`: there is a number of acts after which all workers of a pool have ended, however
they take turns and whatever their requests are answered.

## Strategy

The program for a file is a finite tree, and each of its requests leads to one of its subtrees, so a
worker that takes no further file ends (`Worker.wellFounded_goes`).  Such acts replace one worker in
the multiset of all workers by one that is nearer to its end.  Taking a file starts a new program,
but the queue never grows, so it comes first in the order.
-/

namespace Dealias

/-! ## One worker -/

/-- Whether a worker becomes another one by an act that takes no file. -/
inductive Worker.Goes : Worker → Worker → Prop
  | finish : Goes (.ended none) .idle
  | ask (path : Path) (request : Request) (next : request.Reply → Program TaskEnd)
      (reply : request.Reply) : Goes (.busy path (next reply)) (.busy path (.ask request next))
  | report (path : Path) (report : FileReport) : Goes .idle (.busy path (.done (.ok report)))
  | crash (path : Path) (message : String) :
      Goes (.ended (some message)) (.busy path (.done (.error message)))

/-- A worker that takes no file ends. -/
theorem Worker.wellFounded_goes : WellFounded Goes := by
  have hended : ∀ crash?, Acc Goes (.ended crash?) := fun crash? => ⟨_, nofun⟩
  have hidle : Acc Goes .idle := by
    constructor
    intro worker hgoes
    cases hgoes
    exact hended none
  constructor
  intro worker
  cases worker with
  | idle => exact hidle
  | ended crash? => exact hended crash?
  | busy path rest =>
      -- by induction on the program that is left
      induction rest with
      | done taskEnd =>
          constructor
          intro worker hgoes
          cases hgoes with
          | report path report => exact hidle
          | crash path message => exact hended (some message)
      | ask request next ih =>
          constructor
          intro worker hgoes
          cases hgoes with
          | ask path request next reply => exact ih reply

namespace Pool

variable {Store : Type} [FileStore Store] {task : Path → Program TaskEnd}

/-! ## All workers -/

/-- The files that wait, and the workers in any order. -/
def remaining (pool : Pool Store) : Nat × Multiset Worker :=
  (pool.queue.waiting.length, pool.workers)

/-- Whether fewer files wait, or no more and the workers are nearer to their ends. -/
def Nearer : Nat × Multiset Worker → Nat × Multiset Worker → Prop :=
  Prod.Lex (· < ·) (Relation.CutExpand Worker.Goes)

theorem wellFounded_nearer : WellFounded Nearer :=
  WellFounded.prod_lex Nat.lt_wfRel.wf Worker.wellFounded_goes.cutExpand

omit [FileStore Store] in
theorem cutExpand_workers {worker worker' : Worker} (front back : List Worker)
    (hgoes : Worker.Goes worker' worker) :
    Relation.CutExpand Worker.Goes (front ++ worker' :: back : List Worker)
      (front ++ worker :: back : List Worker) := by
  rw [← Multiset.coe_add, ← Multiset.coe_add, Relation.cutExpand_add_left,
    ← Multiset.cons_coe, ← Multiset.cons_coe, ← Multiset.singleton_add, ← Multiset.singleton_add]
  exact Relation.cutExpand_single_add hgoes _

/-- Every act brings the workers nearer to their ends. -/
theorem Step.nearer {pool next : Pool Store} {number : Nat} (hstep : Step task pool number next) :
    Nearer next.remaining pool.remaining := by
  cases hstep with
  | finish front back reports world => exact .right _ (cutExpand_workers front back .finish)
  | take path waiting front back reports world => exact .left _ _ (Nat.lt_succ_self _)
  | ask path request next queue front back reports world =>
      exact .right _ (cutExpand_workers front back (.ask ..))
  | report path report queue front back reports world =>
      exact .right _ (cutExpand_workers front back (.report ..))
  | crash path message queue front back reports world =>
      exact .right _ (cutExpand_workers front back (.crash ..))

theorem Step.number_lt {pool next : Pool Store} {number : Nat}
    (hstep : Step task pool number next) : number < pool.workers.length := by
  cases hstep <;> simp

/-- The schedules that a pool can follow are bounded. -/
theorem exists_bound_length (task : Path → Program TaskEnd) (pool : Pool Store) :
    ∃ bound, ∀ schedule next, pool.follow? task schedule = some next →
      schedule.length ≤ bound := by
  induction hremaining : pool.remaining using wellFounded_nearer.induction generalizing pool with
  | _ remaining ih =>
  subst hremaining
  -- one bound for each worker that can act first
  have hworker : ∀ number, ∃ bound, ∀ between, pool.step? task number = some between →
      ∀ schedule next, between.follow? task schedule = some next → schedule.length ≤ bound := by
    intro number
    cases hstep : pool.step? task number with
    | none => exact ⟨0, nofun⟩
    | some between =>
        obtain ⟨bound, hbound⟩ := ih _ (step?_iff.mp hstep).nearer between rfl
        refine ⟨bound, fun between' hbetween => ?_⟩
        exact Option.some.inj hbetween ▸ hbound
  choose bounds hbounds using hworker
  refine ⟨(Finset.range pool.workers.length).sup bounds + 1, ?_⟩
  intro schedule next hfollow
  cases schedule with
  | nil => exact Nat.zero_le _
  | cons number schedule =>
      obtain ⟨between, hbetween, hrest⟩ := Option.bind_eq_some_iff.mp hfollow
      have hnumber := (step?_iff.mp hbetween).number_lt
      have hle : bounds number ≤ (Finset.range pool.workers.length).sup bounds :=
        Finset.le_sup (Finset.mem_range.mpr hnumber)
      have hlength := hbounds number between hbetween schedule next hrest
      rw [List.length_cons]
      omega

/-- **Every schedule ends.**  After a number of acts all workers have ended. -/
theorem exists_bound (task : Path → Program TaskEnd) (pool : Pool Store) :
    ∃ bound, ∀ schedule next, pool.follow? task schedule = some next →
      bound ≤ schedule.length → next.hasReturned = true := by
  obtain ⟨bound, hbound⟩ := exists_bound_length task pool
  refine ⟨bound, fun schedule next hfollow hlength => ?_⟩
  -- no act is left, so the schedule that lets all workers end has none
  obtain ⟨rest, returned, hrest, hreturned⟩ := exists_schedule task next
  have hall : pool.follow? task (schedule ++ rest) = some returned := by
    rw [follow?_append, hfollow, Option.bind_some, hrest]
  have hle := hbound _ _ hall
  rw [List.length_append] at hle
  obtain rfl : rest = [] := List.length_eq_zero_iff.mp (by omega)
  exact Option.some.inj hrest ▸ hreturned

end Pool
end Dealias
