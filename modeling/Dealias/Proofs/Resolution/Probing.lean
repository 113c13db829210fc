import Mathlib.Algebra.BigOperators.Group.Finset.Basic
import Dealias.Proofs.Alias.Precedence
import Dealias.Proofs.Resolution.Transparent

/-!
# No candidate is searched for twice

Finding the file behind a candidate takes up to seven looks at the tree.  Calls that share one cache
pay for each candidate once, whatever aliases and files they come from and whether a file was found
or not.

* `AliasTable.probes_resolveEach`: how often a sequence of calls looks at the tree.

## Strategy

The candidates that a call examines are those of its alias, up to the first one that is located and
can be reached (`AliasTable.examined`).  After some calls the cache knows exactly the candidates
that have been examined, and each has been paid for once (`World.Searched`).  A call that examines a
candidate again finds it in the cache; a call that examines a new one adds it and its cost.
-/

namespace Dealias

variable {tree : MemoryTree}

/-! ## What has to be examined -/

/-- Whether a candidate is located and can be reached from a directory. -/
def MemoryTree.reaches (tree : MemoryTree) (directory candidate : Path) : Bool :=
  (tree.located? candidate).isSome && (relativeSpecifier? directory candidate).isSome

/-- The candidates up to the first one that is located and can be reached, with that one. -/
def MemoryTree.examined (tree : MemoryTree) (directory : Path) (candidates : List Path) :
    List Path :=
  candidates.take (candidates.findIdx (tree.reaches directory) + 1)

/-- The candidates that resolving a specifier of a file has to examine. -/
def AliasTable.examined (table : AliasTable) (tree : MemoryTree) (specifier : String)
    (file : Path) : List Path :=
  match table.match? specifier with
  | none => []
  | some (entry, remainder) =>
    tree.examined (importingDirectory file)
      (entry.targets.map fun target => target.candidate remainder)

/-- How often the tree is looked at to find the file behind a candidate: up to the first name at
which a file stands, or once for each name. -/
def MemoryTree.searchCost (tree : MemoryTree) (candidate : Path) : Nat :=
  match (candidate :: ["js", "jsx", "ts", "tsx", "d.ts", "json"].map
      candidate.appendExtension).findIdx? tree.isFile with
  | some place => place + 1
  | none => 7

theorem MemoryTree.examined_cons (tree : MemoryTree) (directory candidate : Path)
    (others : List Path) :
    tree.examined directory (candidate :: others) =
      candidate ::
        if tree.reaches directory candidate then [] else tree.examined directory others := by
  rw [examined, List.findIdx_cons, List.take_succ_cons]
  cases tree.reaches directory candidate with
  | true => rfl
  | false => rfl

theorem MemoryTree.searchCost_eq (tree : MemoryTree) (candidate : Path) :
    tree.searchCost candidate =
      ((probeNames candidate).findIdx? tree.isFile).elim 7 fun place => place + 1 := by
  have hnames : candidate :: ["js", "jsx", "ts", "tsx", "d.ts", "json"].map
      candidate.appendExtension = probeNames candidate := rfl
  rw [searchCost, hnames]
  cases (probeNames candidate).findIdx? tree.isFile with
  | some place => rfl
  | none => rfl

/-! ## Searching -/

/-- The same world after some looks at the tree. -/
def World.looked (world : World MemoryTree) (count : Nat) : World MemoryTree :=
  { world with store := { world.store with probes := world.store.probes + count } }

theorem World.looked_looked (world : World MemoryTree) (first second : Nat) :
    (world.looked first).looked second = world.looked (first + second) := by
  simp only [looked, Nat.add_assoc]

namespace Program

/-- One look tells whether a file stands at a path. -/
theorem run_isFile (path : Path) (world : World MemoryTree) :
    (isFile path).run world = (world.store.isFile path, world.looked 1) := by
  unfold isFile MemoryTree.isFile
  have hanswer : world.answer (.describe path) =
      ((world.store.describe path).1, world.looked 1) := rfl
  rw [bind_eq, run_bind, run_request, hanswer]
  cases (world.store.describe path).1 with
  | ok metadata => rfl
  | error fault => rfl

/-- How often it is looked for the first file among paths. -/
theorem run_firstFile (paths : List Path) (world : World MemoryTree) :
    (firstFile paths).run world = (paths.find? world.store.isFile,
      world.looked ((paths.findIdx? world.store.isFile).elim paths.length (· + 1))) := by
  induction paths generalizing world with
  | nil => rfl
  | cons path others ih =>
      unfold firstFile
      rw [bind_eq, run_bind, run_isFile]
      cases hfile : world.store.isFile path with
      | true =>
          rw [List.find?_cons_of_pos hfile, List.findIdx?_cons, hfile]
          rfl
      | false =>
          have hothers := ih (world.looked 1)
          show (firstFile others).run (world.looked 1) = _
          have hsame : (world.looked 1).store.isFile = world.store.isFile := rfl
          rw [hothers, hsame, List.find?_cons_of_neg (by simp [hfile]), List.findIdx?_cons, hfile,
            World.looked_looked]
          cases hplace : others.findIdx? world.store.isFile with
          | none => simp [Nat.add_comm]
          | some place => simp [Nat.add_comm]

end Program

/-! ## What the cache knows -/

theorem isSome_lookup_cons {Key Value : Type} [BEq Key] [LawfulBEq Key] (key other : Key)
    (value : Value) (entries : List (Key × Value)) :
    (((key, value) :: entries).lookup other).isSome = true ↔
      key = other ∨ (entries.lookup other).isSome = true := by
  by_cases hsame : other = key
  · simp [hsame]
  · simp [List.lookup_cons, beq_false_of_ne hsame, Ne.symm hsame]

/-- Whether the candidates that have been searched for are known to the cache, and no others, and
each has cost its looks once. -/
structure World.Searched (tree : MemoryTree) (seen : Finset Path) (world : World MemoryTree) :
    Prop where
  agrees : world.Agrees tree
  known : ∀ candidate, candidate.IsNormal →
    ((world.cache.probes.lookup candidate.location).isSome = true ↔ candidate ∈ seen)
  probes : world.store.probes = tree.probes + ∑ candidate ∈ seen, tree.searchCost candidate

namespace World.Searched

variable {seen : Finset Path} {world next : World MemoryTree}

theorem start (tree : MemoryTree) : (World.start tree).Searched tree ∅ where
  agrees := World.agrees_start (.refl tree) (List.suffix_refl _)
  known candidate _ := by simp [World.start, Cache.empty]
  probes := by simp [World.start]

/-- What neither looks at the tree nor adds a candidate to the cache. -/
theorem of_same (hsearched : world.Searched tree seen) (hagrees : next.Agrees tree)
    (hcache : next.cache.probes = world.cache.probes)
    (hstore : next.store.probes = world.store.probes) : next.Searched tree seen where
  agrees := hagrees
  known := hcache ▸ hsearched.known
  probes := hstore.trans hsearched.probes

theorem union_nil (hsearched : world.Searched tree seen) :
    world.Searched tree (seen ∪ ([] : List Path).toFinset) := by
  rw [List.toFinset_nil, Finset.union_empty]
  exact hsearched

/-- A candidate is searched for if it has not been, and is known afterwards. -/
theorem locate (hsearched : world.Searched tree seen) {candidate : Path}
    (hcandidate : candidate.IsNormal) :
    ((Program.locate candidate).run world).2.Searched tree (insert candidate seen) := by
  have hagrees : ((Program.locate candidate).run world).2.Agrees tree :=
    ((Program.finds_locate hcandidate).run hsearched.agrees).1
  unfold Program.locate at hagrees ⊢
  have hanswer : world.answer (.lookupProbe candidate) =
      (world.cache.probes.lookup candidate.location,
        { world with cache := (world.cache.lookupProbe candidate).2 }) := rfl
  rw [Program.bind_eq, Program.run_bind, Program.run_request, hanswer] at hagrees ⊢
  cases hlookup : world.cache.probes.lookup candidate.location with
  | some found =>
      have hseen : candidate ∈ seen :=
        (hsearched.known candidate hcandidate).mp (by rw [hlookup]; rfl)
      rw [hlookup] at hagrees
      rw [Finset.insert_eq_of_mem hseen]
      exact hsearched.of_same hagrees rfl rfl
  | none =>
      have hseen : candidate ∉ seen := fun hseen => by
        have hsome := (hsearched.known candidate hcandidate).mpr hseen
        rw [hlookup] at hsome
        cases hsome
      rw [hlookup] at hagrees
      dsimp only at hagrees ⊢
      rw [Program.bind_eq, Program.run_bind, Program.run_firstFile] at hagrees ⊢
      refine ⟨hagrees, fun other hother => ?_, ?_⟩
      · refine (isSome_lookup_cons candidate.location other.location _ _).trans ?_
        rw [Finset.mem_insert, ← hsearched.known other hother]
        refine or_congr_left ⟨fun hsame => hother.ext hcandidate hsame.symm, ?_⟩
        rintro rfl
        rfl
      · have hcost : ((probeNames candidate).findIdx? world.store.isFile).elim 7 (· + 1) =
            tree.searchCost candidate := by
          rw [hsearched.agrees.store.isFile_eq, tree.searchCost_eq]
        show world.store.probes +
            ((probeNames candidate).findIdx? world.store.isFile).elim 7 (· + 1) =
          tree.probes + ∑ candidate ∈ insert candidate seen, tree.searchCost candidate
        rw [hcost, hsearched.probes, Finset.sum_insert hseen]
        omega

/-- Addressing a candidate does not search. -/
theorem specifierFrom (hsearched : world.Searched tree seen) {target : Path}
    (htarget : target.IsNormal) (directory : Path) :
    ((Program.specifierFrom directory target).run world).2.Searched tree seen := by
  have hagrees := ((Program.finds_specifierFrom htarget directory).run hsearched.agrees).1
  unfold Program.specifierFrom at hagrees ⊢
  have hanswer : world.answer (.lookupSpecifier target directory) =
      (world.cache.specifiers.lookup (target.location, directory.location),
        { world with cache := (world.cache.lookupSpecifier target directory).2 }) := rfl
  rw [Program.bind_eq, Program.run_bind, Program.run_request, hanswer] at hagrees ⊢
  cases hlookup : world.cache.specifiers.lookup (target.location, directory.location) with
  | some specifier =>
      rw [hlookup] at hagrees
      exact hsearched.of_same hagrees rfl rfl
  | none =>
      rw [hlookup] at hagrees
      dsimp only at hagrees ⊢
      cases hspecifier : relativeSpecifier? directory target with
      | none =>
          rw [hspecifier] at hagrees
          exact hsearched.of_same hagrees rfl rfl
      | some specifier =>
          rw [hspecifier] at hagrees
          exact hsearched.of_same hagrees rfl rfl

/-- Candidates are searched for one after the other, up to the first that can be reached. -/
theorem firstReachable {candidates : List Path}
    (hcandidates : ∀ candidate ∈ candidates, candidate.IsNormal)
    (hsearched : world.Searched tree seen) (directory : Path) :
    ((Program.firstReachable directory candidates).run world).2.Searched tree
      (seen ∪ (tree.examined directory candidates).toFinset) := by
  induction candidates generalizing seen world with
  | nil => exact hsearched.union_nil
  | cons candidate others ih =>
      obtain ⟨hcandidate, hothers⟩ := List.forall_mem_cons.mp hcandidates
      have hlocate := hsearched.locate hcandidate
      have hlocated := ((Program.finds_locate hcandidate).run hsearched.agrees).2.1
      rw [MemoryTree.examined_cons, List.toFinset_cons, Finset.union_insert,
        ← Finset.insert_union]
      unfold Program.firstReachable
      rw [Program.bind_eq, Program.run_bind, hlocated]
      cases hfile : tree.located? candidate with
      | none =>
          have hreaches : tree.reaches directory candidate = false := by
            rw [MemoryTree.reaches, hfile]
            rfl
          rw [hreaches]
          exact ih hothers hlocate
      | some located =>
          have hspecifier := ((Program.finds_specifierFrom hcandidate directory).run
            hlocate.agrees).2.1
          dsimp only
          rw [Program.bind_eq, Program.run_bind, hspecifier]
          have hspecified := hlocate.specifierFrom hcandidate directory
          cases haddress : relativeSpecifier? directory candidate with
          | none =>
              have hreaches : tree.reaches directory candidate = false := by
                rw [MemoryTree.reaches, haddress, Bool.and_comm]
                rfl
              rw [hreaches]
              exact ih hothers hspecified
          | some address =>
              have hreaches : tree.reaches directory candidate = true := by
                rw [MemoryTree.reaches, hfile, haddress]
                rfl
              rw [hreaches]
              exact hspecified.union_nil

/-- A call searches for the candidates that it has to examine. -/
theorem resolve (hsearched : world.Searched tree seen) (table : AliasTable) (specifier : String)
    (file : Path) :
    ((table.resolve specifier file).run world).2.Searched tree
      (seen ∪ (table.examined tree specifier file).toFinset) := by
  have hagrees := ((table.finds_resolve specifier file).run hsearched.agrees).1
  unfold AliasTable.resolve AliasTable.examined at *
  cases hmatch : table.match? specifier with
  | none => exact hsearched.union_nil
  | some found =>
      obtain ⟨entry, remainder⟩ := found
      have hcandidates : ∀ candidate ∈ entry.targets.map (·.candidate remainder),
          candidate.IsNormal := by
        simp only [List.forall_mem_map]
        exact fun target _ => target.isNormal_candidate remainder
      have hreached := firstReachable hcandidates hsearched (importingDirectory file)
      rw [hmatch] at hagrees
      dsimp only at hagrees ⊢
      rw [Program.bind_eq, Program.run_bind] at hagrees ⊢
      cases hresult : ((Program.firstReachable (importingDirectory file)
          (entry.targets.map (·.candidate remainder))).run world).1 with
      | some relative => exact hreached
      | none =>
          rw [hresult] at hagrees
          dsimp only at hagrees ⊢
          cases hcatchAll : entry.isCatchAll with
          | true => exact hreached
          | false =>
              rw [hcatchAll] at hagrees
              exact hreached.of_same hagrees rfl rfl

/-- A sequence of calls searches for the candidates that they have to examine. -/
theorem resolveEach (hsearched : world.Searched tree seen) (table : AliasTable)
    (calls : List (String × Path)) :
    ((table.resolveEach calls).run world).2.Searched tree
      (seen ∪ (calls.flatMap fun call => table.examined tree call.1 call.2).toFinset) := by
  induction calls generalizing seen world with
  | nil => exact hsearched.union_nil
  | cons call calls ih =>
      have hcall := ih (hsearched.resolve table call.1 call.2)
      rw [List.flatMap_cons, List.toFinset_append, ← Finset.union_assoc]
      unfold AliasTable.resolveEach
      rw [Program.bind_eq, Program.run_bind, Program.bind_eq, Program.run_bind]
      exact hcall

end World.Searched

/-! ## The looks of a sequence of calls -/

/-- **Each candidate is searched for once.**  A sequence of calls with a cache that is empty at the
start looks at the tree as often as the different candidates cost that the calls have to examine.
Repeating an earlier call costs nothing, and a specifier that is a path or that no alias matches is
resolved without touching anything. -/
theorem AliasTable.probes_resolveEach (table : AliasTable) (tree : MemoryTree)
    (calls : List (String × Path)) :
    ((table.resolveEach calls).run (World.start tree)).2.store.probes = tree.probes +
        ∑ candidate ∈ (calls.flatMap fun call => table.examined tree call.1 call.2).toFinset,
          tree.searchCost candidate ∧
      (∀ call ∈ calls,
        ((table.resolveEach (calls ++ [call])).run (World.start tree)).2.store.probes =
          ((table.resolveEach calls).run (World.start tree)).2.store.probes) ∧
      ∀ specifier file (world : World MemoryTree),
        (IsPathSpecifier specifier ∨
          ∀ entry ∈ table.entries, ∀ remainder, ¬ entry.Matches specifier remainder) →
        (table.resolve specifier file).run world = (.notAliased, world) := by
  have hprobes : ∀ calls : List (String × Path),
      ((table.resolveEach calls).run (World.start tree)).2.store.probes = tree.probes +
        ∑ candidate ∈ (calls.flatMap fun call => table.examined tree call.1 call.2).toFinset,
          tree.searchCost candidate := by
    intro calls
    have hsearched := (World.Searched.start tree).resolveEach table calls
    rw [Finset.empty_union] at hsearched
    exact hsearched.probes
  refine ⟨hprobes calls, fun call hcall => ?_, fun specifier file world hunmatched => ?_⟩
  · rw [hprobes, hprobes]
    have hexamined : ((calls ++ [call]).flatMap fun call =>
        table.examined tree call.1 call.2).toFinset =
          (calls.flatMap fun call => table.examined tree call.1 call.2).toFinset := by
      rw [List.flatMap_append, List.flatMap_singleton, List.toFinset_append,
        Finset.union_eq_left]
      intro candidate hcandidate
      rw [List.mem_toFinset] at hcandidate ⊢
      exact List.mem_flatMap.mpr ⟨call, hcall, hcandidate⟩
    rw [hexamined]
  · unfold AliasTable.resolve
    rw [match?_eq_none_iff.mpr hunmatched]
    rfl

/-- A module in a library directory. -/
def MemoryTree.library : MemoryTree :=
  (MemoryTree.empty ⟨"/"⟩).putFile [.root, .name "p", .name "lib", .name "x.ts"] "".toUTF8

/-- Two aliases that share the library directory. -/
def AliasTable.sharing : AliasTable where
  entries := [⟨"@/*", "@/", .leading, [⟨⟨"/p/src/"⟩, ""⟩, ⟨⟨"/p/lib/"⟩, ""⟩]⟩,
    ⟨"~/*", "~/", .leading, [⟨⟨"/p/lib/"⟩, ""⟩]⟩]

/-- The second call, for another file and by another alias, finds what the first one has paid for:
seven looks for a candidate without a file, and four for the library module. -/
theorem AliasTable.probes_resolveEach_sample :
    ((sharing.resolveEach [("@/x", ⟨"/p/a.js"⟩), ("~/y/../x", ⟨"/p/b/c.js"⟩)]).run
      (World.start MemoryTree.library)).2.store.probes = 11 ∧
    ((sharing.resolveEach ([("@/x", ⟨"/p/a.js"⟩), ("~/y/../x", ⟨"/p/b/c.js"⟩)] ++
      [("@/x", ⟨"/p/a.js"⟩)])).run (World.start MemoryTree.library)).2.store.probes = 11 ∧
    (sharing.resolve "./x" ⟨"/p/a.js"⟩).run (World.start MemoryTree.library) =
      (.notAliased, World.start MemoryTree.library) := by
  obtain ⟨hprobes, hrepeated, hunmatched⟩ := probes_resolveEach sharing MemoryTree.library
    [("@/x", ⟨"/p/a.js"⟩), ("~/y/../x", ⟨"/p/b/c.js"⟩)]
  have hcost : ∑ candidate ∈ ([("@/x", (⟨"/p/a.js"⟩ : Path)), ("~/y/../x", ⟨"/p/b/c.js"⟩)].flatMap
      fun call => sharing.examined MemoryTree.library call.1 call.2).toFinset,
        MemoryTree.library.searchCost candidate = 11 := by
    decide +kernel
  rw [hcost] at hprobes
  exact ⟨hprobes, (hrepeated _ (List.mem_cons_self ..)).trans hprobes,
    hunmatched "./x" ⟨"/p/a.js"⟩ _ (.inl (by decide))⟩

end Dealias
