import Mathlib.Algebra.GroupWithZero.Nat
import Dealias.Proofs.Batch.File
import Dealias.Proofs.Resolution.Probing

/-!
# What the work on a file looks up in the cache

Whatever the cache holds and whatever others do, the work on a file looks up the same keys in the
same order: each candidate that it has to examine, and behind each located one the way to it
(`RunConfig.lookups`).  Only which of the look-ups find something depends on the others.

* `RunConfig.looksUp_isolateFile`: the work on one file looks up just these keys, and stores an
  answer for a key that it has missed before it looks up the next one.

## Strategy

A program that owes look-ups keeps a ledger: the keys that are due, and the key that it has missed
and has no answer for yet (`Ledger`).  Each request pays from the ledger (`Ledger.Pays`), and in the
end nothing is due (`Program.LooksUp`).  What a program finds on its way is known from
`Program.Finds`.
-/

namespace Dealias

/-! ## Keys -/

/-- What is looked up in a cache. -/
inductive CacheKey where
  /-- The file behind a candidate. -/
  | candidate (place : Location)
  /-- The way to a target from a directory. -/
  | way (target directory : Location)
deriving DecidableEq

/-- Whether a cache holds something for a key. -/
def Cache.knows (cache : Cache) : CacheKey → Bool
  | .candidate place => (cache.probes.lookup place).isSome
  | .way target directory => (cache.specifiers.lookup (target, directory)).isSome

/-- The key that a request looks up. -/
def Request.lookup? : Request → Option CacheKey
  | lookupProbe candidate => some (.candidate candidate.location)
  | lookupSpecifier target directory => some (.way target.location directory.location)
  | _ => none

/-- The key that a request stores something for. -/
def Request.store? : Request → Option CacheKey
  | storeProbe candidate _ => some (.candidate candidate.location)
  | storeSpecifier target directory _ => some (.way target.location directory.location)
  | _ => none

/-- Look-ups are counted, and nothing else is. -/
theorem World.counts_answer {Store : Type} [FileStore Store] (world : World Store)
    (request : Request) :
    (world.answer request).2.cache.counts =
      request.lookup?.elim world.cache.counts fun key =>
        world.cache.counts.record (world.cache.knows key) := by
  cases request <;> rfl

/-- What has been stored is known, and nothing is forgotten. -/
theorem World.knows_answer {Store : Type} [FileStore Store] (world : World Store)
    (request : Request) (key : CacheKey) :
    (world.answer request).2.cache.knows key = true ↔
      request.store? = some key ∨ world.cache.knows key = true := by
  cases request with
  | storeProbe candidate found =>
      cases key with
      | candidate place =>
          refine (isSome_lookup_cons candidate.location place _ _).trans (or_congr_left ?_)
          rw [Request.store?, Option.some.injEq, CacheKey.candidate.injEq]
      | way target directory =>
          simp [Request.store?]
          rfl
  | storeSpecifier target directory specifier =>
      cases key with
      | candidate place =>
          simp [Request.store?]
          rfl
      | way target' directory' =>
          refine (isSome_lookup_cons (target.location, directory.location) (target', directory')
            _ _).trans (or_congr_left ?_)
          rw [Request.store?, Option.some.injEq, CacheKey.way.injEq, Prod.mk.injEq]
  | _ => simp [Request.store?]; rfl

/-! ## Ledgers -/

/-- What a program owes: the key that it has missed and has stored nothing for yet, and the keys
that it still has to look up. -/
structure Ledger where
  missed : Option CacheKey
  due : List CacheKey

/-- How a request pays from a ledger, with a cache that knows what it knows. -/
inductive Ledger.Pays (cache : Cache) (request : Request) : Ledger → Ledger → Prop
  | hit (key : CacheKey) (later : List CacheKey) (hlookup : request.lookup? = some key)
      (hknows : cache.knows key = true) : Pays cache request ⟨none, key :: later⟩ ⟨none, later⟩
  | miss (key : CacheKey) (later : List CacheKey) (hlookup : request.lookup? = some key)
      (hknows : cache.knows key = false) :
      Pays cache request ⟨none, key :: later⟩ ⟨some key, later⟩
  /-- An answer is stored for the key that was missed. -/
  | settle (key : CacheKey) (due : List CacheKey) (hstore : request.store? = some key) :
      Pays cache request ⟨some key, due⟩ ⟨none, due⟩
  | free (ledger : Ledger) (hlookup : request.lookup? = none) (hstore : request.store? = none) :
      Pays cache request ledger ledger

/-- The same ledger with more look-ups behind it. -/
def Ledger.andThen (ledger : Ledger) (later : List CacheKey) : Ledger :=
  ⟨ledger.missed, ledger.due ++ later⟩

theorem Ledger.Pays.andThen {cache : Cache} {request : Request} {ledger ledger' : Ledger}
    (hpays : Pays cache request ledger ledger') (later : List CacheKey) :
    Pays cache request (ledger.andThen later) (ledger'.andThen later) := by
  cases hpays with
  | hit key due hlookup hknows => exact .hit key (due ++ later) hlookup hknows
  | miss key due hlookup hknows => exact .miss key (due ++ later) hlookup hknows
  | settle key due hstore => exact .settle key (due ++ later) hstore
  | free ledger hlookup hstore => exact .free _ hlookup hstore

/-! ## Programs that owe look-ups -/

namespace Program

variable {First Second : Type} {tree : MemoryTree} {place : Location}

/-- Whether a program pays its ledger, as long as others keep the agreement with a tree and leave
the view of one place alone, which is `now` at the start. -/
def LooksUp (tree : MemoryTree) (place : Location) :
    Ledger → MemoryTree.View → Program First → Prop
  | ledger, _, done _ => ledger = ⟨none, []⟩
  | ledger, now, ask request next => ∀ world : World MemoryTree, world.Agrees tree →
      world.store.view place = now →
        ∃ ledger', ledger.Pays world.cache request ledger' ∧
          (next (world.answer request).1).LooksUp tree place ledger'
            ((world.answer request).2.store.view place)

/-- A program that goes on from the result of another pays first what that one owes. -/
theorem LooksUp.bind {goal : MemoryTree.View → First → Prop} {ledger : Ledger}
    {now : MemoryTree.View} {program : Program First} {next : First → Program Second}
    {later : List CacheKey} (hprogram : program.LooksUp tree place ledger now)
    (hensures : program.Ensures tree place goal now)
    (hnext : ∀ now result, goal now result → (next result).LooksUp tree place ⟨none, later⟩ now) :
    (program >>= next).LooksUp tree place (ledger.andThen later) now := by
  induction program generalizing ledger now with
  | done result =>
      obtain rfl : ledger = ⟨none, []⟩ := hprogram
      exact hnext now result hensures
  | ask request rest ih =>
      intro world hagrees hview
      obtain ⟨ledger', hpays, hrest⟩ := hprogram world hagrees hview
      exact ⟨ledger'.andThen later, hpays.andThen later,
        ih _ hrest (hensures world hagrees hview).2⟩

/-- Whether a program leaves the entries of the cache alone. -/
abbrev IsQuiet (program : Program First) : Prop :=
  program.Within (fun request => request.lookup? = none ∧ request.store? = none) fun _ => True

theorem isQuiet_request {request : Request} (hlookup : request.lookup? = none)
    (hstore : request.store? = none) : (Program.request request).IsQuiet :=
  within_request ⟨hlookup, hstore⟩

theorem IsQuiet.bind {program : Program First} {next : First → Program Second}
    (hprogram : program.IsQuiet) (hnext : ∀ result, (next result).IsQuiet) :
    (program >>= next).IsQuiet :=
  Within.bind hprogram fun result _ => hnext result

/-- A quiet program leaves what is owed to what comes behind it. -/
theorem IsQuiet.bind_looksUp {ledger : Ledger} {program : Program First}
    {next : First → Program Second} (hquiet : program.IsQuiet)
    (hnext : ∀ now result, (next result).LooksUp tree place ledger now)
    (now : MemoryTree.View) : (program >>= next).LooksUp tree place ledger now := by
  induction program generalizing now with
  | done result => exact hnext now result
  | ask request rest ih =>
      intro world hagrees hview
      exact ⟨ledger, .free ledger hquiet.1.1 hquiet.1.2, ih _ (hquiet.2 _) _⟩

/-- A quiet program owes nothing. -/
theorem IsQuiet.looksUp {program : Program First} (hquiet : program.IsQuiet)
    (now : MemoryTree.View) : program.LooksUp tree place ⟨none, []⟩ now := by
  induction program generalizing now with
  | done result => exact rfl
  | ask request rest ih =>
      intro world hagrees hview
      exact ⟨_, .free _ hquiet.1.1 hquiet.1.2, ih _ (hquiet.2 _) _⟩

/-- A quiet program whose result is known leaves what is owed for it. -/
theorem IsQuiet.bind_ensures {goal : MemoryTree.View → First → Prop} {now : MemoryTree.View}
    {program : Program First} {next : First → Program Second} {later : List CacheKey}
    (hquiet : program.IsQuiet) (hensures : program.Ensures tree place goal now)
    (hnext : ∀ now result, goal now result → (next result).LooksUp tree place ⟨none, later⟩ now) :
    (program >>= next).LooksUp tree place ⟨none, later⟩ now :=
  (hquiet.looksUp now).bind hensures hnext

/-- Nothing more is owed when a quiet program comes behind. -/
theorem LooksUp.bind_isQuiet {ledger : Ledger} {now : MemoryTree.View} {program : Program First}
    {next : First → Program Second} (hprogram : program.LooksUp tree place ledger now)
    (hnext : ∀ result, (next result).IsQuiet) :
    (program >>= next).LooksUp tree place ledger now := by
  induction program generalizing ledger now with
  | done result =>
      obtain rfl : ledger = ⟨none, []⟩ := hprogram
      exact (hnext result).looksUp now
  | ask request rest ih =>
      intro world hagrees hview
      obtain ⟨ledger', hpays, hrest⟩ := hprogram world hagrees hview
      exact ⟨ledger', hpays, ih _ hrest⟩

/-! ## The programs of resolution -/

theorem isQuiet_firstFile (paths : List Path) : (firstFile paths).IsQuiet := by
  induction paths with
  | nil => exact trivial
  | cons path others ih =>
      refine IsQuiet.bind ?_ fun found => ?_
      · refine (isQuiet_request rfl rfl).bind fun reply => ?_
        cases reply <;> exact trivial
      · cases found with
        | true => exact trivial
        | false => exact ih

theorem looksUp_locate (candidate : Path) (now : MemoryTree.View) :
    (locate candidate).LooksUp tree place ⟨none, [.candidate candidate.location]⟩ now := by
  intro world hagrees hview
  have hreply : (world.answer (.lookupProbe candidate)).1 =
      world.cache.probes.lookup candidate.location := rfl
  rw [hreply]
  cases hlookup : world.cache.probes.lookup candidate.location with
  | some found =>
      have hknows : world.cache.knows (.candidate candidate.location) = true := by
        rw [Cache.knows, hlookup]
        rfl
      exact ⟨_, .hit _ [] rfl hknows, rfl⟩
  | none =>
      have hknows : world.cache.knows (.candidate candidate.location) = false := by
        rw [Cache.knows, hlookup]
        rfl
      refine ⟨_, .miss _ [] rfl hknows, ?_⟩
      refine (isQuiet_firstFile (probeNames candidate)).bind_looksUp (fun now found => ?_) _
      intro world hagrees hview
      exact ⟨_, .settle _ [] rfl, rfl⟩

/-- When there is an address, it is looked up and stored. -/
theorem looksUp_specifierFrom {directory target : Path}
    (haddress : (relativeSpecifier? directory target).isSome = true) (now : MemoryTree.View) :
    (specifierFrom directory target).LooksUp tree place
      ⟨none, [.way target.location directory.location]⟩ now := by
  intro world hagrees hview
  have hreply : (world.answer (.lookupSpecifier target directory)).1 =
      world.cache.specifiers.lookup (target.location, directory.location) := rfl
  rw [hreply]
  cases hlookup : world.cache.specifiers.lookup (target.location, directory.location) with
  | some specifier =>
      have hknows : world.cache.knows (.way target.location directory.location) = true := by
        rw [Cache.knows, hlookup]
        rfl
      exact ⟨_, .hit _ [] rfl hknows, rfl⟩
  | none =>
      have hknows : world.cache.knows (.way target.location directory.location) = false := by
        rw [Cache.knows, hlookup]
        rfl
      refine ⟨_, .miss _ [] rfl hknows, ?_⟩
      obtain ⟨specifier, hspecifier⟩ := Option.isSome_iff_exists.mp haddress
      simp only [hspecifier]
      intro world hagrees hview
      exact ⟨_, .settle _ [] rfl, rfl⟩

end Program

/-- The keys that are looked up for an examined candidate: the file behind it, and if there is one,
the way to the candidate. -/
def MemoryTree.candidateKeys (tree : MemoryTree) (directory candidate : Path) : List CacheKey :=
  .candidate candidate.location ::
    if (tree.located? candidate).isSome then [.way candidate.location directory.location] else []

/-- The keys that resolving a specifier of a file looks up. -/
def AliasTable.lookups (table : AliasTable) (tree : MemoryTree) (specifier : String)
    (file : Path) : List CacheKey :=
  (table.examined tree specifier file).flatMap (tree.candidateKeys (importingDirectory file))

/-- Whether a specifier is resolved to another one. -/
def Resolution.isResolved : Resolution → Bool
  | resolved _ => true
  | _ => false

/-- Whether every candidate of a table has an address in a file. -/
def AliasTable.AddressesAll (table : AliasTable) (file : Path) : Prop :=
  ∀ entry ∈ table.entries, ∀ target ∈ entry.targets, ∀ remainder,
    (relativeSpecifier? (importingDirectory file) (target.candidate remainder)).isSome = true

section Programs

variable {tree : MemoryTree} {place : Location}

theorem Program.looksUp_firstReachable {directory : Path} {candidates : List Path}
    (hcandidates : ∀ candidate ∈ candidates, candidate.IsNormal)
    (haddress : ∀ candidate ∈ candidates,
      (relativeSpecifier? directory candidate).isSome = true) (now : MemoryTree.View) :
    (firstReachable directory candidates).LooksUp tree place
      ⟨none, (tree.examined directory candidates).flatMap (tree.candidateKeys directory)⟩ now := by
  induction candidates generalizing now with
  | nil => exact rfl
  | cons candidate others ih =>
      obtain ⟨hcandidate, hothers⟩ := List.forall_mem_cons.mp hcandidates
      obtain ⟨hreachable, haddress⟩ := List.forall_mem_cons.mp haddress
      rw [MemoryTree.examined_cons, List.flatMap_cons, MemoryTree.candidateKeys, List.cons_append]
      refine (looksUp_locate candidate now).bind (finds_locate hcandidate place now) ?_
      rintro now _ ⟨-, rfl⟩
      rw [MemoryTree.reaches, hreachable, Bool.and_true]
      cases tree.located? candidate with
      | none => exact ih hothers haddress now
      | some located =>
          refine (looksUp_specifierFrom hreachable now).bind
            (finds_specifierFrom hcandidate directory place now) ?_
          rintro now _ ⟨-, rfl⟩
          obtain ⟨specifier, hspecifier⟩ := Option.isSome_iff_exists.mp hreachable
          rw [hspecifier]
          exact rfl

theorem AliasTable.looksUp_resolve (table : AliasTable) {file : Path}
    (haddress : table.AddressesAll file) (specifier : String) (now : MemoryTree.View) :
    (table.resolve specifier file).LooksUp tree place
      ⟨none, table.lookups tree specifier file⟩ now := by
  unfold AliasTable.resolve AliasTable.lookups AliasTable.examined
  cases hmatch : table.match? specifier with
  | none => exact rfl
  | some found =>
      obtain ⟨entry, remainder⟩ := found
      have hentry : entry ∈ table.entries := (match?_eq_some hmatch).1
      have hcandidates : ∀ candidate ∈ entry.targets.map (·.candidate remainder),
          candidate.IsNormal ∧
            (relativeSpecifier? (importingDirectory file) candidate).isSome = true := by
        simp only [List.forall_mem_map]
        exact fun target htarget =>
          ⟨target.isNormal_candidate remainder, haddress entry hentry target htarget remainder⟩
      refine (Program.looksUp_firstReachable (fun candidate hmem => (hcandidates candidate hmem).1)
        (fun candidate hmem => (hcandidates candidate hmem).2) now).bind_isQuiet fun reached => ?_
      cases reached with
      | some relative => exact trivial
      | none =>
          dsimp only
          split
          · exact trivial
          · exact (Program.isQuiet_request rfl rfl).bind fun _ => trivial

theorem AliasTable.looksUp_resolveAll (table : AliasTable) {file : Path}
    (haddress : table.AddressesAll file) (occurrences : List Occurrence)
    (now : MemoryTree.View) :
    (table.resolveAll file occurrences).LooksUp tree place
      ⟨none, occurrences.flatMap fun occurrence => table.lookups tree occurrence.specifier file⟩
      now := by
  induction occurrences generalizing now with
  | nil => exact rfl
  | cons occurrence others ih =>
      rw [List.flatMap_cons]
      refine (table.looksUp_resolve haddress occurrence.specifier now).bind
        (table.finds_resolve occurrence.specifier file place now) fun now resolution _ => ?_
      exact (ih now).bind_isQuiet fun _ => trivial

theorem AliasTable.looksUp_rewire (table : AliasTable) {file : Path}
    (haddress : table.AddressesAll file) (text : String) (now : MemoryTree.View) :
    (table.rewire text file).LooksUp tree place
      ⟨none, (occurrences text).flatMap fun occurrence =>
        table.lookups tree occurrence.specifier file⟩ now :=
  (table.looksUp_resolveAll haddress (occurrences text) now).bind_isQuiet fun _ => trivial

end Programs

/-! ## How many look-ups -/

/-- One look-up for each candidate that is examined, and one for the way to the last one if it is
reached. -/
theorem MemoryTree.length_candidateKeys {tree : MemoryTree} {directory : Path}
    {candidates : List Path} (haddress : ∀ candidate ∈ candidates,
      (relativeSpecifier? directory candidate).isSome = true) :
    ((tree.examined directory candidates).flatMap (tree.candidateKeys directory)).length =
      (tree.examined directory candidates).length +
        (tree.reachable? directory candidates).isSome.toNat := by
  induction candidates with
  | nil => rfl
  | cons candidate others ih =>
      obtain ⟨hreachable, haddress⟩ := List.forall_mem_cons.mp haddress
      have hothers := ih haddress
      rw [examined_cons, List.flatMap_cons, List.length_append, reaches, hreachable, Bool.and_true,
        candidateKeys, reachable?, List.findSome?_cons]
      obtain ⟨address, haddress⟩ := Option.isSome_iff_exists.mp hreachable
      cases tree.located? candidate with
      | none =>
          have hreached : tree.reachable? directory others = others.findSome? fun candidate =>
            (tree.located? candidate).bind fun _ => relativeSpecifier? directory candidate := rfl
          simp only [Option.isSome_none, Bool.false_eq_true, if_false, Option.bind_none,
            List.length_cons, List.length_nil, ← hreached]
          omega
      | some located =>
          rw [Option.bind_some, haddress]
          rfl

theorem AliasTable.length_lookups {table : AliasTable} {tree : MemoryTree} {file : Path}
    (haddress : table.AddressesAll file) (specifier : String) :
    (table.lookups tree specifier file).length = (table.examined tree specifier file).length +
      (table.resolutionIn tree specifier file).isResolved.toNat := by
  unfold lookups examined resolutionIn
  cases hmatch : table.match? specifier with
  | none => rfl
  | some found =>
      obtain ⟨entry, remainder⟩ := found
      have hcandidates : ∀ candidate ∈ entry.targets.map (·.candidate remainder),
          (relativeSpecifier? (importingDirectory file) candidate).isSome = true := by
        simp only [List.forall_mem_map]
        exact fun target htarget =>
          haddress entry (match?_eq_some hmatch).1 target htarget remainder
      refine (MemoryTree.length_candidateKeys hcandidates).trans ?_
      dsimp only
      cases tree.reachable? (importingDirectory file)
        (entry.targets.map fun target => target.candidate remainder) with
      | some address => rfl
      | none => cases entry.isCatchAll <;> rfl

/-- The place of a candidate that is looked up. -/
def CacheKey.candidate? : CacheKey → Option Location
  | candidate place => some place
  | way _ _ => none

/-- The way that is looked up. -/
def CacheKey.way? : CacheKey → Option (Location × Location)
  | candidate _ => none
  | way target directory => some (target, directory)

theorem CacheKey.mem_filterMap_candidate? {keys : List CacheKey} {place : Location} :
    place ∈ keys.filterMap candidate? ↔ candidate place ∈ keys := by
  rw [List.mem_filterMap]
  constructor
  · rintro ⟨key, hkey, hplace⟩
    cases key with
    | candidate other => exact Option.some.inj hplace ▸ hkey
    | way target directory => cases hplace
  · exact fun hplace => ⟨_, hplace, rfl⟩

theorem CacheKey.mem_filterMap_way? {keys : List CacheKey} {target directory : Location} :
    (target, directory) ∈ keys.filterMap way? ↔ way target directory ∈ keys := by
  rw [List.mem_filterMap]
  constructor
  · rintro ⟨key, hkey, hway⟩
    cases key with
    | candidate other => cases hway
    | way other directory' =>
        obtain ⟨rfl, rfl⟩ := Prod.mk.inj (Option.some.inj hway)
        exact hkey
  · exact fun hway => ⟨_, hway, rfl⟩

/-- Different keys are different candidates and different ways. -/
theorem CacheKey.card_toFinset (keys : List CacheKey) :
    keys.toFinset.card =
      (keys.filterMap candidate?).toFinset.card + (keys.filterMap way?).toFinset.card := by
  induction keys with
  | nil => rfl
  | cons key keys ih =>
      rw [List.toFinset_cons, Finset.card_insert_eq_ite, ih]
      cases key with
      | candidate place =>
          have hcandidates : (candidate place :: keys).filterMap candidate? =
            place :: keys.filterMap candidate? := rfl
          have hways : (candidate place :: keys).filterMap way? = keys.filterMap way? := rfl
          rw [hcandidates, hways, List.toFinset_cons, Finset.card_insert_eq_ite]
          simp only [List.mem_toFinset, mem_filterMap_candidate?]
          split <;> omega
      | way target directory =>
          have hcandidates : (way target directory :: keys).filterMap candidate? =
            keys.filterMap candidate? := rfl
          have hways : (way target directory :: keys).filterMap way? =
            (target, directory) :: keys.filterMap way? := rfl
          rw [hcandidates, hways, List.toFinset_cons, Finset.card_insert_eq_ite]
          simp only [List.mem_toFinset, mem_filterMap_way?]
          split <;> omega

theorem AliasTable.filterMap_candidate?_lookups (table : AliasTable) (tree : MemoryTree)
    (specifier : String) (file : Path) :
    (table.lookups tree specifier file).filterMap CacheKey.candidate? =
      (table.examined tree specifier file).map Path.location := by
  rw [lookups, List.filterMap_flatMap]
  induction table.examined tree specifier file with
  | nil => rfl
  | cons candidate others ih =>
      rw [List.flatMap_cons, ih, List.map_cons, MemoryTree.candidateKeys]
      cases (tree.located? candidate).isSome <;> rfl

theorem AliasTable.filterMap_way?_lookups (table : AliasTable) (tree : MemoryTree)
    (specifier : String) (file : Path) :
    (table.lookups tree specifier file).filterMap CacheKey.way? =
      ((table.examined tree specifier file).filter fun candidate =>
        (tree.located? candidate).isSome).map fun candidate =>
          (candidate.location, (importingDirectory file).location) := by
  rw [lookups, List.filterMap_flatMap]
  induction table.examined tree specifier file with
  | nil => rfl
  | cons candidate others ih =>
      rw [List.flatMap_cons, ih, List.filter_cons, MemoryTree.candidateKeys]
      cases (tree.located? candidate).isSome <;> rfl

/-! ## The work on one file -/

namespace RunConfig

/-- The imports that are scanned in a file: those of its text, if it can be read and is text. -/
def scanned (tree : MemoryTree) (file : Path) : List Occurrence :=
  match (tree.read file).1 with
  | .content bytes =>
    match String.fromUTF8? bytes with
    | some text => occurrences text
    | none => []
  | _ => []

/-- The keys that the work on a file looks up. -/
def lookups (config : RunConfig) (tree : MemoryTree) (file : Path) : List CacheKey :=
  (scanned tree file).flatMap fun occurrence =>
    config.aliases.lookups tree occurrence.specifier file

/-- How often the work on a file looks something up: once for each candidate that is examined, and
once more for each import that is resolved. -/
def lookupCount (config : RunConfig) (tree : MemoryTree) (file : Path) : Nat :=
  ((scanned tree file).map fun occurrence =>
    (config.aliases.examined tree occurrence.specifier file).length +
      (config.aliases.resolutionIn tree occurrence.specifier file).isResolved.toNat).sum

/-- The places of the candidates that the work on files examines. -/
def examinedPlaces (config : RunConfig) (tree : MemoryTree) (files : List Path) :
    Finset Location :=
  (files.flatMap fun file => (scanned tree file).flatMap fun occurrence =>
    (config.aliases.examined tree occurrence.specifier file).map Path.location).toFinset

/-- The places of the located ones among them, with the directories of the importing files. -/
def locatedWays (config : RunConfig) (tree : MemoryTree) (files : List Path) :
    Finset (Location × Location) :=
  (files.flatMap fun file => (scanned tree file).flatMap fun occurrence =>
    ((config.aliases.examined tree occurrence.specifier file).filter fun candidate =>
      (tree.located? candidate).isSome).map fun candidate =>
        (candidate.location, (importingDirectory file).location)).toFinset

theorem length_lookups {config : RunConfig} {tree : MemoryTree} {file : Path}
    (haddress : config.aliases.AddressesAll file) :
    (config.lookups tree file).length = config.lookupCount tree file := by
  rw [lookups, lookupCount, List.length_flatMap]
  simp only [AliasTable.length_lookups haddress]

theorem card_lookups (config : RunConfig) (tree : MemoryTree) (files : List Path) :
    (files.flatMap (config.lookups tree)).toFinset.card =
      (config.examinedPlaces tree files).card + (config.locatedWays tree files).card := by
  rw [CacheKey.card_toFinset]
  simp only [examinedPlaces, locatedWays, lookups, List.filterMap_flatMap,
    AliasTable.filterMap_candidate?_lookups, AliasTable.filterMap_way?_lookups]

variable {tree : MemoryTree} {place : Location}

theorem isQuiet_fail (fault : FileFault) : (Program.fail fault).IsQuiet :=
  (Program.isQuiet_request rfl rfl).bind fun _ => trivial

theorem isQuiet_settle (config : RunConfig) (path : Path) (rewired : Rewired) :
    (config.settle path rewired).IsQuiet := by
  unfold settle
  split
  · exact trivial
  · split
    · exact trivial
    · refine (Program.isQuiet_request rfl rfl).bind fun reply => ?_
      cases reply with
      | ok => exact trivial
      | error cause => exact isQuiet_fail _

/-- **The look-ups for one file.**  Whatever others do between its requests, as long as they leave
the file alone, the work on a file looks up the keys that the tree at the start gives. -/
theorem looksUp_isolateFile (config : RunConfig) {file : Path}
    (hplain : tree.IsPlain file.location) (haddress : config.aliases.AddressesAll file) :
    (config.isolateFile file).LooksUp tree file.location ⟨none, config.lookups tree file⟩
      (tree.view file.location) := by
  unfold isolateFile
  refine Program.LooksUp.bind_isQuiet ?_ fun taskEnd => ?_
  · unfold processFile
    refine (Program.isQuiet_request rfl rfl).bind_ensures (ensures_read hplain) ?_
    rintro now _ ⟨-, rfl⟩
    unfold lookups scanned
    cases (tree.read file).1 with
    | content bytes =>
        dsimp only
        refine Program.LooksUp.bind_isQuiet ?_ fun _ => trivial
        unfold processContent
        cases String.fromUTF8? bytes with
        | none =>
            refine Program.IsQuiet.looksUp ?_ now
            exact (isQuiet_fail _).bind fun _ => trivial
        | some text =>
            dsimp only
            refine (config.aliases.looksUp_rewire haddress text now).bind_isQuiet fun rewired => ?_
            exact (config.isQuiet_settle file rewired).bind fun _ => trivial
    | failed cause =>
        refine Program.IsQuiet.looksUp ?_ now
        exact (isQuiet_fail _).bind fun _ => trivial
    | crashed message => exact rfl
  · cases taskEnd with
    | ok report => exact trivial
    | error message => exact (isQuiet_fail _).bind fun _ => trivial

end RunConfig
end Dealias
