import Dealias.Proofs.Addresses
import Dealias.Proofs.Batch.Lookups
import Dealias.Proofs.Batch.Schedule

/-!
# The counts of the cache

Which look-ups of a run find something depends on the schedule: two workers can both miss a key when
neither has stored an answer yet.  How many look-ups there are does not.

* `RunOptions.cache_counts`: hits and misses together are what the tree at the start gives, there
  are at least as many misses as different keys, and just as many when there is a single worker.

## Strategy

Every worker owes the look-ups of its file, and every file that waits will be owed for; together
with the keys that have been asked these are always the keys of the whole batch (`Pool.Tallied`).  A
key that is found has been stored, so it has been missed before; hence every key that is asked has
been missed at least once (`Tally`).  A worker that is alone stores an answer for each key that it
misses before it asks again, so it does not miss a key twice.
-/

namespace Dealias

/-! ## Tallies -/

/-- What the look-ups so far amount to, when some keys are missed and nothing is stored for them
yet, and the workers are `alone` or not. -/
structure Tally (alone : Prop) (cache : Cache) (pending : CacheKey → Prop)
    (asked missed : List CacheKey) : Prop where
  total : cache.counts.hits + cache.counts.misses = asked.length
  misses : cache.counts.misses = missed.length
  /-- Every key that is asked has been missed. -/
  covered : ∀ key, key ∈ asked ↔ key ∈ missed
  stored : ∀ key, cache.knows key = true → key ∈ missed
  unsettled : ∀ key, pending key → key ∈ missed
  /-- A worker that is alone misses no key twice. -/
  single : alone → missed.Nodup ∧ ∀ key ∈ missed, cache.knows key = true ∨ pending key

namespace Tally

variable {alone : Prop} {cache cache' : Cache} {pending : CacheKey → Prop}
  {asked missed : List CacheKey} {key : CacheKey}

theorem start (alone : Prop) : Tally alone .empty (fun _ => False) [] [] where
  total := rfl
  misses := rfl
  covered _ := Iff.rfl
  stored key hknows := by cases key <;> cases hknows
  unsettled _ := False.elim
  single _ := ⟨.nil, nofun⟩

theorem congr {pending' : CacheKey → Prop} (htally : Tally alone cache pending asked missed)
    (hsame : ∀ key, pending' key ↔ pending key) :
    Tally alone cache pending' asked missed := by
  obtain rfl : pending' = pending := funext fun key => propext (hsame key)
  exact htally

/-- A key that is found has been missed before. -/
theorem hit (htally : Tally alone cache pending asked missed) (hknows : cache.knows key = true)
    (hcounts : cache'.counts = cache.counts.record true)
    (hsame : ∀ other, cache'.knows other = true ↔ cache.knows other = true) :
    Tally alone cache' pending (key :: asked) missed where
  total := by
    have htotal := htally.total
    rw [hcounts, List.length_cons]
    show cache.counts.hits + 1 + cache.counts.misses = asked.length + 1
    omega
  misses := by
    rw [hcounts]
    exact htally.misses
  covered other := by
    rw [List.mem_cons, htally.covered, or_iff_right_iff_imp]
    rintro rfl
    exact htally.stored _ hknows
  stored other hother := htally.stored other ((hsame other).mp hother)
  unsettled := htally.unsettled
  single halone := by
    obtain ⟨hnodup, hsettled⟩ := htally.single halone
    exact ⟨hnodup, fun other hother => (hsettled other hother).imp_left (hsame other).mpr⟩

/-- A worker that is alone has settled all that was missed before. -/
theorem miss (htally : Tally alone cache pending asked missed) (hknows : cache.knows key = false)
    (hsettled : alone → ∀ other, ¬ pending other)
    (hcounts : cache'.counts = cache.counts.record false)
    (hsame : ∀ other, cache'.knows other = true ↔ cache.knows other = true) :
    Tally alone cache' (fun other => other = key ∨ pending other) (key :: asked)
      (key :: missed) where
  total := by
    have htotal := htally.total
    rw [hcounts, List.length_cons]
    show cache.counts.hits + (cache.counts.misses + 1) = asked.length + 1
    omega
  misses := by
    rw [hcounts, List.length_cons, ← htally.misses]
    rfl
  covered other := by rw [List.mem_cons, List.mem_cons, htally.covered]
  stored other hother := List.mem_cons_of_mem _ (htally.stored other ((hsame other).mp hother))
  unsettled other hother := List.mem_cons.mpr (hother.imp_right (htally.unsettled other))
  single halone := by
    obtain ⟨hnodup, hknown⟩ := htally.single halone
    have hfresh : key ∉ missed := fun hmissed => by
      rcases hknown key hmissed with hknows' | hunsettled
      · rw [hknows] at hknows'
        cases hknows'
      · exact hsettled halone key hunsettled
    refine ⟨List.nodup_cons.mpr ⟨hfresh, hnodup⟩, fun other hother => ?_⟩
    rcases List.mem_cons.mp hother with rfl | hother
    · exact .inr (.inl rfl)
    · exact (hknown other hother).imp (hsame other).mpr .inr

/-- An answer is stored for a key that was missed. -/
theorem settle (htally : Tally alone cache (fun other => other = key ∨ pending other) asked missed)
    (hcounts : cache'.counts = cache.counts)
    (hknows : ∀ other, cache'.knows other = true ↔ key = other ∨ cache.knows other = true) :
    Tally alone cache' pending asked missed where
  total := hcounts ▸ htally.total
  misses := hcounts ▸ htally.misses
  covered := htally.covered
  stored other hother := by
    rcases (hknows other).mp hother with rfl | hother
    · exact htally.unsettled _ (.inl rfl)
    · exact htally.stored other hother
  unsettled other hother := htally.unsettled other (.inr hother)
  single halone := by
    obtain ⟨hnodup, hknown⟩ := htally.single halone
    refine ⟨hnodup, fun other hother => ?_⟩
    rcases hknown other hother with hother | rfl | hother
    · exact .inl ((hknows other).mpr (.inr hother))
    · exact .inl ((hknows other).mpr (.inl rfl))
    · exact .inr hother

theorem free (htally : Tally alone cache pending asked missed)
    (hcounts : cache'.counts = cache.counts)
    (hsame : ∀ other, cache'.knows other = true ↔ cache.knows other = true) :
    Tally alone cache' pending asked missed where
  total := hcounts ▸ htally.total
  misses := hcounts ▸ htally.misses
  covered := htally.covered
  stored other hother := htally.stored other ((hsame other).mp hother)
  unsettled := htally.unsettled
  single halone := by
    obtain ⟨hnodup, hknown⟩ := htally.single halone
    exact ⟨hnodup, fun other hother => (hknown other hother).imp_left (hsame other).mpr⟩

end Tally

/-- A request that looks up stores nothing. -/
theorem Request.store?_of_lookup? {request : Request} {key : CacheKey}
    (hlookup : request.lookup? = some key) : request.store? = none := by
  cases request <;> first | rfl | cases hlookup

/-- The keys that are missed in ledgers. -/
def Ledger.Missed (ledgers : List Ledger) (key : CacheKey) : Prop :=
  ∃ ledger ∈ ledgers, ledger.missed = some key

theorem Ledger.missed_append_cons {front back : List Ledger} {ledger : Ledger} {key : CacheKey} :
    Missed (front ++ ledger :: back) key ↔
      ledger.missed = some key ∨ Missed (front ++ back) key := by
  simp only [Missed, List.mem_append, List.mem_cons]
  constructor
  · rintro ⟨other, hother | rfl | hother, hmissed⟩
    · exact .inr ⟨other, .inl hother, hmissed⟩
    · exact .inl hmissed
    · exact .inr ⟨other, .inr hother, hmissed⟩
  · rintro (hmissed | ⟨other, hother | hother, hmissed⟩)
    · exact ⟨ledger, .inr (.inl rfl), hmissed⟩
    · exact ⟨other, .inl hother, hmissed⟩
    · exact ⟨other, .inr (.inr hother), hmissed⟩

theorem Ledger.length_replace {front back : List Ledger} (ledger ledger' : Ledger) :
    (front ++ ledger' :: back).length = (front ++ ledger :: back).length := by
  simp

/-- A worker that is alone and has missed nothing leaves nothing missed. -/
theorem Ledger.not_missed_of_single {front back : List Ledger} {ledger : Ledger}
    (hmissed : ledger.missed = none) (hsingle : (front ++ ledger :: back).length ≤ 1)
    (key : CacheKey) : ¬ Missed (front ++ ledger :: back) key := by
  simp only [List.length_append, List.length_cons] at hsingle
  obtain rfl : front = [] := List.length_eq_zero_iff.mp (by omega)
  obtain rfl : back = [] := List.length_eq_zero_iff.mp (by omega)
  rw [missed_append_cons, hmissed]
  simp [Missed]

/-- The ledger of one worker changes in what it owes, not in what it has missed. -/
theorem Tally.replace {cache : Cache} {front back : List Ledger} {ledger ledger' : Ledger}
    {asked missed : List CacheKey}
    (htally : Tally ((front ++ ledger :: back).length ≤ 1) cache
      (Ledger.Missed (front ++ ledger :: back)) asked missed)
    (hmissed : ledger'.missed = ledger.missed) :
    Tally ((front ++ ledger' :: back).length ≤ 1) cache
      (Ledger.Missed (front ++ ledger' :: back)) asked missed := by
  rw [Ledger.length_replace ledger ledger']
  refine htally.congr fun key => ?_
  rw [Ledger.missed_append_cons, Ledger.missed_append_cons, hmissed]

/-- What one worker asks is tallied. -/
theorem Tally.pay {world : World MemoryTree} {request : Request} {front back : List Ledger}
    {ledger ledger' : Ledger} {asked missed : List CacheKey}
    (htally : Tally ((front ++ ledger :: back).length ≤ 1) world.cache
      (Ledger.Missed (front ++ ledger :: back)) asked missed)
    (hpays : ledger.Pays world.cache request ledger') :
    ∃ asked' missed', (asked' ++ ledger'.due).Perm (asked ++ ledger.due) ∧
      Tally ((front ++ ledger' :: back).length ≤ 1) (world.answer request).2.cache
        (Ledger.Missed (front ++ ledger' :: back)) asked' missed' := by
  have hcounts := world.counts_answer request
  have hknows := world.knows_answer request
  cases hpays with
  | hit key later hlookup hknown =>
      rw [hlookup, Option.elim_some, hknown] at hcounts
      simp only [Request.store?_of_lookup? hlookup, reduceCtorEq, false_or] at hknows
      exact ⟨key :: asked, missed, List.perm_middle.symm,
        (htally.hit hknown hcounts hknows).replace rfl⟩
  | miss key later hlookup hknown =>
      rw [hlookup, Option.elim_some, hknown] at hcounts
      simp only [Request.store?_of_lookup? hlookup, reduceCtorEq, false_or] at hknows
      refine ⟨key :: asked, key :: missed, List.perm_middle.symm, ?_⟩
      rw [Ledger.length_replace ⟨none, key :: later⟩]
      refine (htally.miss hknown (Ledger.not_missed_of_single rfl) hcounts hknows).congr
        fun other => ?_
      simp [Ledger.missed_append_cons, eq_comm]
  | settle key due hstore =>
      have hlookup : request.lookup? = none := by
        cases request <;> first | rfl | cases hstore
      rw [hlookup, Option.elim_none] at hcounts
      simp only [hstore, Option.some.injEq] at hknows
      refine ⟨asked, missed, .refl _, ?_⟩
      rw [Ledger.length_replace ⟨some key, due⟩]
      refine (htally.congr fun other => ?_).settle hcounts hknows
      simp [Ledger.missed_append_cons, eq_comm]
  | free ledger hlookup hstore =>
      rw [hlookup, Option.elim_none] at hcounts
      simp only [hstore, reduceCtorEq, false_or] at hknows
      exact ⟨asked, missed, .refl _, htally.free hcounts hknows⟩

/-! ## Pools -/

/-- Whether a worker owes what a ledger says: the worker on a file what its program looks up, and a
worker without a file nothing. -/
def Worker.Owes (tree store : MemoryTree) : Worker → Ledger → Prop
  | .busy path rest, ledger => rest.LooksUp tree path.location ledger (store.view path.location)
  | _, ledger => ledger = ⟨none, []⟩

/-- A worker owes what it owed after a request that leaves its file as it was. -/
theorem Worker.Owes.answer {tree : MemoryTree} {world : World MemoryTree} {request : Request}
    {worker : Worker} {ledger : Ledger} (howes : worker.Owes tree world.store ledger)
    (hsame : ∀ path rest, worker = .busy path rest →
      (world.answer request).2.store.view path.location = world.store.view path.location) :
    worker.Owes tree (world.answer request).2.store ledger := by
  cases worker with
  | idle => exact howes
  | ended crash? => exact howes
  | busy path rest =>
      show rest.LooksUp tree path.location ledger _
      rw [hsame path rest rfl]
      exact howes

namespace Pool

/-- What is known about the cache of a pool: what each worker owes, and that what has been asked,
what is owed and what will be owed for the files that wait are the keys of the batch. -/
structure Tallied (config : RunConfig) (tree : MemoryTree) (files : List Path)
    (pool : Pool MemoryTree) (ledgers : List Ledger) (asked missed : List CacheKey) : Prop where
  workers : List.Forall₂ (Worker.Owes tree pool.world.store) pool.workers ledgers
  keys : (asked ++ ledgers.flatMap Ledger.due ++
    pool.queue.waiting.flatMap (config.lookups tree)).Perm (files.flatMap (config.lookups tree))
  tally : Tally (ledgers.length ≤ 1) pool.world.cache (Ledger.Missed ledgers) asked missed

variable {config : RunConfig} {concurrency : Nat} {tree : MemoryTree} {root : Path}
  {files : List Path} {ledgers : List Ledger} {asked missed : List CacheKey}

theorem tallied_start {world : World MemoryTree} (hcache : world.cache = .empty) :
    Tallied config tree files (start concurrency files world)
      (List.replicate (workerCount concurrency files) ⟨none, []⟩) [] [] where
  workers := by
    show List.Forall₂ _ (List.replicate (workerCount concurrency files) Worker.idle) _
    induction workerCount concurrency files with
    | zero => exact .nil
    | succ count ih => exact .cons rfl ih
  keys := by
    have hnone : (List.replicate (workerCount concurrency files) ⟨none, []⟩).flatMap Ledger.due =
        [] :=
      List.flatMap_eq_nil_iff.mpr fun ledger hledger =>
        List.eq_of_mem_replicate hledger ▸ rfl
    rw [hnone]
    exact .refl _
  tally := by
    show Tally _ world.cache _ [] []
    rw [hcache]
    refine (Tally.start _).congr fun key => iff_false_intro ?_
    rintro ⟨ledger, hledger, hmissed⟩
    obtain rfl := List.eq_of_mem_replicate hledger
    cases hmissed

theorem forall₂_imp_of_mem {holds holds' : Worker → Ledger → Prop} {workers : List Worker}
    (hall : List.Forall₂ holds workers ledgers)
    (himp : ∀ worker ∈ workers, ∀ ledger, holds worker ledger → holds' worker ledger) :
    List.Forall₂ holds' workers ledgers := by
  induction hall with
  | nil => exact .nil
  | cons hworker hothers ih =>
      obtain ⟨hfirst, hrest⟩ := List.forall_mem_cons.mp himp
      exact .cons (hfirst _ hworker) (ih hrest)

/-- Every act keeps the tally. -/
theorem Tallied.step {pool next : Pool MemoryTree} {number : Nat}
    (hdiscovered : Discovered tree root files)
    (haddress : ∀ file ∈ files, config.aliases.AddressesAll file)
    (hfaithful : Faithful config concurrency tree files pool)
    (htallied : Tallied config tree files pool ledgers asked missed)
    (hstep : Step config.isolateFile pool number next) :
    ∃ ledgers' asked' missed', Tallied config tree files next ledgers' asked' missed' := by
  obtain ⟨haccounts, hagrees, hwaiting, -⟩ := hfaithful
  obtain ⟨hworkers, hkeys, htally⟩ := htallied
  cases hstep with
  | finish front back reports world =>
      obtain ⟨front', ledger, back', rfl, hfront, hworker, hback⟩ := exists_of_forall₂ hworkers
      exact ⟨_, asked, missed, forall₂_replace hfront hworker hback, hkeys, htally⟩
  | take path waiting front back reports world =>
      obtain ⟨front', ledger, back', rfl, hfront, hworker, hback⟩ := exists_of_forall₂ hworkers
      obtain rfl : ledger = ⟨none, []⟩ := hworker
      have hfile : path ∈ files := haccounts.everyFile.mem_iff.mp (by simp)
      have hlooks := config.looksUp_isolateFile (hdiscovered.plain path hfile) (haddress path hfile)
      rw [← hwaiting path (List.mem_cons_self ..)] at hlooks
      refine ⟨front' ++ ⟨none, config.lookups tree path⟩ :: back', asked, missed,
        forall₂_replace hfront hlooks hback, .trans ?_ hkeys, htally.replace rfl⟩
      -- the keys of the file are owed now, and no longer in the queue
      rw [List.perm_iff_count]
      intro key
      simp only [List.flatMap_append, List.flatMap_cons, List.count_append, List.count_nil]
      omega
  | ask path request rest queue front back reports world =>
      obtain ⟨front', ledger, back', rfl, hfront, hworker, hback⟩ := exists_of_forall₂ hworkers
      have hfile : path ∈ files := haccounts.everyFile.mem_iff.mp (by simp [inWork, Worker.path?])
      have hrequest := (haccounts.onTask (.busy path (.ask request rest)) (by simp)).request_eq
      have hapart := haccounts.location_ne hdiscovered.distinct
      obtain ⟨ledger', hpays, hnext⟩ := hworker world hagrees rfl
      obtain ⟨asked', missed', hperm, htally⟩ := htally.pay hpays
      -- the others see their files as before
      have hothers : ∀ worker ∈ front ++ back, ∀ ledger, worker.Owes tree world.store ledger →
          worker.Owes tree (world.answer request).2.store ledger := by
        intro worker hmem ledger howes
        refine howes.answer fun other rest' hbusy => ?_
        have hplace := hapart other (.inr (.inl ⟨rest', hbusy ▸ hmem⟩))
        exact hagrees.view_answer (hdiscovered.plain path hfile) hrequest hplace
      refine ⟨front' ++ ledger' :: back', asked', missed', forall₂_replace ?_ hnext ?_,
        .trans ?_ hkeys, htally⟩
      · exact forall₂_imp_of_mem hfront fun worker hmem =>
          hothers worker (List.mem_append_left _ hmem)
      · exact forall₂_imp_of_mem hback fun worker hmem =>
          hothers worker (List.mem_append_right _ hmem)
      · rw [List.perm_iff_count] at hperm ⊢
        intro key
        have hcount := hperm key
        simp only [List.flatMap_append, List.flatMap_cons, List.count_append] at hcount ⊢
        omega
  | report path report queue front back reports world =>
      obtain ⟨front', ledger, back', rfl, hfront, hworker, hback⟩ := exists_of_forall₂ hworkers
      exact ⟨_, asked, missed, forall₂_replace hfront hworker hback, hkeys, htally⟩
  | crash path message queue front back reports world =>
      exact absurd (haccounts.onTask (.busy path (.done (.error message))) (by simp))
        Worker.not_onTask_error

/-- What is known about the files and the cache of a pool at every moment. -/
theorem exists_tallied_of_follow? {pool next : Pool MemoryTree} {schedule : List Nat}
    (hdiscovered : Discovered tree root files)
    (haddress : ∀ file ∈ files, config.aliases.AddressesAll file)
    (hfaithful : Faithful config concurrency tree files pool)
    (htallied : Tallied config tree files pool ledgers asked missed)
    (hfollow : pool.follow? config.isolateFile schedule = some next) :
    Faithful config concurrency tree files next ∧
      ∃ ledgers' asked' missed', Tallied config tree files next ledgers' asked' missed' := by
  have hstep (pool : Pool MemoryTree) (number : Nat) (next : Pool MemoryTree)
      (hknown : Faithful config concurrency tree files pool ∧
        ∃ ledgers asked missed, Tallied config tree files pool ledgers asked missed)
      (hstep : Step config.isolateFile pool number next) :
      Faithful config concurrency tree files next ∧
        ∃ ledgers asked missed, Tallied config tree files next ledgers asked missed := by
    obtain ⟨hfaithful, ledgers, asked, missed, htallied⟩ := hknown
    exact ⟨hfaithful.step hdiscovered hstep, htallied.step hdiscovered haddress hfaithful hstep⟩
  exact follow?_invariant hstep ⟨hfaithful, ledgers, asked, missed, htallied⟩ hfollow

/-- **The counts of a batch.**  When all workers have ended, hits and misses are as many as the keys
of the batch, every key has been missed, and a single worker has missed it once. -/
theorem Tallied.counts {pool : Pool MemoryTree}
    (hfaithful : Faithful config concurrency tree files pool)
    (htallied : Tallied config tree files pool ledgers asked missed)
    (hreturned : pool.hasReturned = true) :
    let keys := files.flatMap (config.lookups tree)
    let counts := pool.world.cache.counts
    counts.hits + counts.misses = keys.length ∧ keys.toFinset.card ≤ counts.misses ∧
      (concurrency ≤ 1 → counts.misses = keys.toFinset.card) := by
  intro keys counts
  obtain ⟨hworkers, hkeys, htally⟩ := htallied
  have hended : ∀ worker ∈ pool.workers, worker.hasEnded = true := by
    simpa [hasReturned] using hreturned
  have hdue : ledgers.flatMap Ledger.due = [] :=
    List.flatMap_eq_nil_iff.mpr (forall_mem_of_ended hworkers hended fun _ _ howes => howes ▸ rfl)
  rw [hdue, (hfaithful.accounts.empty_of_hasReturned hreturned).1, List.append_nil,
    List.flatMap_nil, List.append_nil] at hkeys
  have hsame : keys.toFinset = missed.toFinset := by
    ext key
    rw [List.mem_toFinset, List.mem_toFinset, ← htally.covered, hkeys.mem_iff]
  refine ⟨htally.total.trans hkeys.length_eq, ?_, fun hsingle => ?_⟩
  · rw [hsame, htally.misses]
    exact List.toFinset_card_le missed
  · have hlength : ledgers.length ≤ 1 := by
      rw [← hworkers.length_eq, hfaithful.accounts.workers, workerCount, effectiveConcurrency]
      omega
    rw [hsame, List.toFinset_card_of_nodup (htally.single hlength).1]
    exact htally.misses

end Pool

/-! ## Runs -/

/-- Questions about places leave the cache alone. -/
theorem Program.OnlyAsks.cache_run {Store Result : Type} [FileStore Store]
    {program : Program Result} (hprogram : program.OnlyAsks) (world : World Store) :
    (program.run world).2.cache = world.cache := by
  induction program generalizing world with
  | done result => rfl
  | ask request next ih =>
      have hanswer : (world.answer request).2.cache = world.cache := by
        have hquestion := hprogram.1
        cases request <;> first | rfl | cases hquestion
      exact (ih _ (hprogram.2 _) _).trans hanswer

/-! ## Addresses without climbs -/

/-- There is a way out of every directory without a climb in it. -/
theorem Location.isSome_steps? {differs : Bool} {base target : Location} (hbase : .parent ∉ base) :
    (Location.steps? differs base target).isSome = true := by
  induction base generalizing differs target with
  | nil => rfl
  | cons component base ih =>
      obtain ⟨hcomponent, hbase⟩ := List.ne_and_not_mem_of_not_mem_cons hbase
      cases target with
      | nil =>
          rw [steps?_nil_right]
          rfl
      | cons first target =>
          rw [steps?]
          split
          · exact ih hbase
          · split
            · rw [Option.isSome_map]
              exact ih hbase
            · rw [if_neg (Ne.symm hcomponent)]
              rfl

theorem parent_notMem_importingDirectory {file : Path} (hfile : file.isAbsolute = true)
    (hparent : .parent ∉ file.location) : .parent ∉ (importingDirectory file).location := by
  obtain ⟨steps, hlocation, hsteps⟩ := Path.exists_steps_of_isAbsolute hfile
  unfold importingDirectory Path.parent?
  rw [hlocation] at hparent ⊢
  rcases List.eq_nil_or_concat' steps with rfl | ⟨front, last, rfl⟩
  · decide
  · obtain ⟨hfront, hlast⟩ := List.forall_mem_append.mp hsteps
    rw [← List.cons_append, List.getLast?_concat, List.dropLast_concat]
    split
    · rename_i hnone
      cases hnone
    · rename_i hroot
      exact absurd (Option.some.inj hroot) (hlast last (List.mem_singleton_self _)).ne_root
    · intro hmem
      have hmem : .parent ∈ (Path.ofLocation (.root :: front)).location := hmem
      rw [Path.location_ofLocation_root hfront] at hmem
      exact hparent (List.mem_append_left [last] hmem)

/-- In an absolute project every candidate has an address in every file that stands below no
climb. -/
theorem RunConfig.addressesAll {options : RunOptions} {config : RunConfig}
    (hproject : options.projectDir.isAbsolute = true)
    (hconfigure : options.configure = .ok config) {file : Path}
    (hbelow : config.outDir.location <+: file.location) (hparent : .parent ∉ file.location) :
    config.aliases.AddressesAll file := by
  obtain ⟨houtDir, hbuild, -⟩ := RunOptions.configure_ok hconfigure
  have habsolute := RunConfig.isAbsolute_outDir hproject hconfigure
  have hroot : config.outDir.location ≠ [] := houtDir ▸ Path.location_anchor_ne_nil _ _
  have hfile : file.isAbsolute = true := Path.isAbsolute_of_prefix hroot hbelow ▸ habsolute
  intro entry hentry target htarget remainder
  have hcandidate := target.isAbsolute_candidate
    (AliasTable.isAbsolute_base hbuild habsolute hentry htarget) remainder
  rw [relativeSpecifier?, Option.isSome_map, Path.relativeTo?,
    if_pos (hcandidate.trans (isAbsolute_importingDirectory hfile).symm), Option.isSome_map]
  exact Location.isSome_steps? (parent_notMem_importingDirectory hfile hparent)

/-! ## The counts of a run -/

theorem RunOptions.concurrency_of_configure {options : RunOptions} {config : RunConfig}
    (hconfigure : options.configure = .ok config) :
    config.concurrency = effectiveConcurrency options.concurrency := by
  unfold RunOptions.configure at hconfigure
  obtain ⟨aliases, -, hconfig⟩ := bind_eq_ok_iff.mp hconfigure
  exact (Except.ok.inj hconfig) ▸ rfl

/-- **The counts of a run.**  When the project directory is absolute, no file of the tree stands
below a climb, and no link is the output directory or an ancestor of it, the hits and misses of a
run that is not refused are together one look-up for each candidate that is examined for an import
of a discovered file that can be read as text, and one for each such import that is resolved.  At
least as many look-ups miss as there are different candidates and different ways to located
candidates, and just as many with a single worker. -/
theorem RunOptions.cache_counts (options : RunOptions) (schedule : List Nat) (tree : MemoryTree)
    (report : RunReport) (world : World MemoryTree)
    (hproject : options.projectDir.isAbsolute = true)
    (hplaces : ∀ place ∈ tree.files.map Prod.fst, .parent ∉ place)
    (hplain : ∀ link ∈ tree.links,
      ¬ link.1 <+: (options.outDir.anchor options.projectDir).location)
    (hrun : options.runScheduled schedule tree = some (.ok report, world)) :
    ∃ config files, options.configure = .ok config ∧
      (if config.aliases.entries = [] then files = []
        else ((discover (options.directoryBound tree) config.outDir).run (World.start tree)).1 =
          .ok files) ∧
      report.cache.hits + report.cache.misses =
        (files.map (config.lookupCount tree)).sum ∧
      (config.examinedPlaces tree files).card + (config.locatedWays tree files).card ≤
        report.cache.misses ∧
      (options.concurrency ≤ 1 → report.cache.misses =
        (config.examinedPlaces tree files).card + (config.locatedWays tree files).card) := by
  have hstart : (World.start tree).Agrees tree :=
    World.agrees_start (.refl tree) (List.suffix_refl _)
  unfold RunOptions.runScheduled at hrun
  split at hrun
  · cases (Prod.mk.inj (Option.some.inj hrun)).1
  · rename_i config hconfigure
    obtain ⟨houtDir, -⟩ := RunOptions.configure_ok hconfigure
    have hroot : config.outDir.location ≠ [] := houtDir ▸ Path.location_anchor_ne_nil _ _
    obtain ⟨hagrees, hbatch, hview⟩ :=
      (config.finds_prepare (options.directoryBound tree) tree).run hstart
    rcases RunConfig.runScheduled_cases hrun with ⟨fault, -, hresult, -⟩ |
      ⟨hprepare, hresult, -⟩ | ⟨files, pool, hprepare, hpool, hreturned, hresult, -⟩
    · cases hresult
    · obtain rfl := Except.ok.inj hresult
      obtain ⟨hfiles, -⟩ := hbatch none hprepare
      exact ⟨config, [], hconfigure, hfiles, rfl, Nat.le_refl _, fun _ => rfl⟩
    · obtain rfl := Except.ok.inj hresult
      have hfiles : config.WorksOn (options.directoryBound tree) tree files :=
        (hbatch (some files) hprepare).1
      have hdiscovered := hfiles.discovered hroot (houtDir ▸ hplain)
      have haddress : ∀ file ∈ files, config.aliases.AddressesAll file := fun file hfile =>
        RunConfig.addressesAll hproject hconfigure (hdiscovered.below file hfile)
          (hplaces _ (MemoryTree.hasFile_iff.mp (hdiscovered.stored file hfile)))
      have hcache := (config.onlyAsks_prepare (options.directoryBound tree)).cache_run
        (World.start tree)
      obtain ⟨hfaithful, ledgers, asked, missed, htallied⟩ :=
        Pool.exists_tallied_of_follow? hdiscovered haddress (Pool.faithful_start hagrees hview)
          (Pool.tallied_start hcache) hpool
      obtain ⟨htotal, hmisses, hsingle⟩ := htallied.counts hfaithful hreturned
      have hlength : (files.flatMap (config.lookups tree)).length =
          (files.map (config.lookupCount tree)).sum := by
        rw [List.length_flatMap]
        exact congrArg List.sum (List.map_congr_left fun file hfile =>
          RunConfig.length_lookups (haddress file hfile))
      rw [hlength] at htotal
      rw [RunConfig.card_lookups] at hmisses hsingle
      refine ⟨config, files, hconfigure, hfiles, htotal, hmisses, fun hconcurrency => ?_⟩
      refine hsingle ?_
      rw [RunOptions.concurrency_of_configure hconfigure, effectiveConcurrency]
      omega

/-- Concurrency does not come into anything else that a run works with. -/
theorem RunOptions.configure_concurrency {options : RunOptions} {config : RunConfig}
    (hconfigure : options.configure = .ok config) (concurrency : Nat) :
    RunOptions.configure { options with concurrency } =
      .ok { config with concurrency := effectiveConcurrency concurrency } := by
  unfold RunOptions.configure at hconfigure ⊢
  obtain ⟨aliases, hbuild, hconfig⟩ := bind_eq_ok_iff.mp hconfigure
  obtain rfl := Except.ok.inj hconfig
  exact bind_eq_ok_iff.mpr ⟨aliases, hbuild, rfl⟩

/-- A single worker misses the candidate and the way to it. -/
theorem RunOptions.cache_counts_sample :
    ∃ schedule report world,
      RunOptions.runScheduled { RunOptions.sample with concurrency := 1 } schedule
        MemoryTree.sample = some (.ok report, world) ∧ report.cache = ⟨0, 2⟩ := by
  have hconfigure := RunOptions.configure_concurrency RunOptions.configure_sample 1
  obtain ⟨schedule, pool, hpool, hreturned⟩ := Pool.exists_schedule
    (RunConfig.isolateFile { RunConfig.sample with concurrency := 1 })
    (Pool.start 1 [⟨"/p/dist/a.js"⟩, ⟨"/p/dist/b.js"⟩]
      ((RunConfig.sample.prepare (RunOptions.sample.directoryBound MemoryTree.sample)).run
        (World.start MemoryTree.sample)).2)
  have hrun := (RunOptions.runScheduled_of_configure hconfigure schedule MemoryTree.sample).trans
    (RunConfig.runScheduled_eq RunConfig.prepare_sample hpool hreturned)
  obtain ⟨config, files, hconfigure', hfiles, htotal, -, hsingle⟩ :=
    RunOptions.cache_counts _ schedule MemoryTree.sample _ _ (by decide +kernel)
      (by decide +kernel) nofun hrun
  obtain rfl := Except.ok.inj (hconfigure.symm.trans hconfigure')
  obtain rfl : files = [⟨"/p/dist/a.js"⟩, ⟨"/p/dist/b.js"⟩] := by
    rw [if_neg (by decide +kernel)] at hfiles
    exact Except.ok.inj (hfiles.symm.trans RunConfig.discover_sample)
  -- one candidate is examined and located, for the import of the first module
  have hlookups : ([⟨"/p/dist/a.js"⟩, ⟨"/p/dist/b.js"⟩].map (RunConfig.lookupCount
      { RunConfig.sample with concurrency := 1 } MemoryTree.sample)).sum = 2 := by decide +kernel
  have hkeys : (RunConfig.examinedPlaces { RunConfig.sample with concurrency := 1 }
      MemoryTree.sample [⟨"/p/dist/a.js"⟩, ⟨"/p/dist/b.js"⟩]).card +
        (RunConfig.locatedWays { RunConfig.sample with concurrency := 1 } MemoryTree.sample
          [⟨"/p/dist/a.js"⟩, ⟨"/p/dist/b.js"⟩]).card = 2 := by decide +kernel
  have hmisses := (hsingle (Nat.le_refl 1)).trans hkeys
  have htotal := htotal.trans hlookups
  refine ⟨schedule, _, _, hrun, ?_⟩
  generalize RunReport.cache _ = counts at hmisses htotal ⊢
  obtain ⟨hits, misses⟩ := counts
  obtain rfl : misses = 2 := hmisses
  obtain rfl : hits = 0 := Nat.add_right_cancel htotal
  rfl

end Dealias
