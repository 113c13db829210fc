import Dealias.Proofs.Sharing

/-!
# Resolution without a cache

What becomes of a specifier is a function of the alias table, the file and the places of a tree:
`AliasTable.resolutionIn`.  The program that resolves it, with its cache and among other programs,
finds just that (`AliasTable.finds_resolve`), and rewiring a text finds what it makes of the
specifiers in it (`AliasTable.finds_rewire`).
-/

namespace Dealias

variable {tree : MemoryTree}

/-! ## The function -/

/-- The relative specifier of the first candidate that is located and can be reached. -/
def MemoryTree.reachable? (tree : MemoryTree) (directory : Path) (candidates : List Path) :
    Option String :=
  candidates.findSome? fun candidate =>
    (tree.located? candidate).bind fun _ => relativeSpecifier? directory candidate

/-- What becomes of a specifier in a tree. -/
def AliasTable.resolutionIn (table : AliasTable) (tree : MemoryTree) (specifier : String)
    (file : Path) : Resolution :=
  match table.match? specifier with
  | none => .notAliased
  | some (entry, remainder) =>
    match tree.reachable? (importingDirectory file)
        (entry.targets.map fun target => target.candidate remainder) with
    | some relative => .resolved relative
    | none => if entry.isCatchAll then .notAliased else .unresolved entry.pattern

/-- The candidate that a specifier is resolved to, if any: the first one that is located and can be
reached. -/
def AliasTable.chosen? (table : AliasTable) (tree : MemoryTree) (specifier : String)
    (file : Path) : Option Path :=
  (table.match? specifier).bind fun found =>
    (found.1.targets.map fun target => target.candidate found.2).find? fun candidate =>
      (tree.located? candidate).isSome &&
        (relativeSpecifier? (importingDirectory file) candidate).isSome

/-- A specifier is resolved to the address of the chosen candidate. -/
theorem AliasTable.chosen?_of_resolved {table : AliasTable} {specifier address : String}
    {file : Path} (hresolved : table.resolutionIn tree specifier file = .resolved address) :
    ∃ entry remainder located, ∃ target ∈ entry.targets,
      table.match? specifier = some (entry, remainder) ∧
      table.chosen? tree specifier file = some (target.candidate remainder) ∧
      tree.located? (target.candidate remainder) = some located ∧
      relativeSpecifier? (importingDirectory file) (target.candidate remainder) =
        some address := by
  unfold resolutionIn at hresolved
  split at hresolved
  · cases hresolved
  · rename_i entry remainder hmatch
    split at hresolved
    · rename_i relative hreachable
      obtain rfl := Resolution.resolved.inj hresolved
      obtain ⟨front, candidate, back, hcandidates, hsome, hfront⟩ :=
        List.findSome?_eq_some_iff.mp hreachable
      obtain ⟨located, hlocated, haddress⟩ := Option.bind_eq_some_iff.mp hsome
      obtain ⟨target, htarget, rfl⟩ : ∃ target ∈ entry.targets,
          target.candidate remainder = candidate :=
        List.mem_map.mp (hcandidates ▸ List.mem_append_right _ (List.mem_cons_self ..))
      refine ⟨entry, remainder, located, target, htarget, hmatch, ?_, hlocated, haddress⟩
      rw [chosen?, hmatch, Option.bind_some, hcandidates, List.find?_eq_some_iff_append]
      refine ⟨by simp [hlocated, haddress], front, back, rfl, fun other hother => ?_⟩
      have hnone := hfront other hother
      cases hlocation : tree.located? other with
      | none => rfl
      | some place =>
          rw [hlocation, Option.bind_some] at hnone
          simp [hnone]
    · split at hresolved <;> cases hresolved

/-- What becomes of a text in a tree. -/
def AliasTable.rewiredIn (table : AliasTable) (tree : MemoryTree) (text : String) (file : Path) :
    Rewired :=
  Rewired.ofFindings text ((occurrences text).map fun occurrence =>
    (occurrence, table.resolutionIn tree occurrence.specifier file))

theorem AliasTarget.isNormal_candidate (target : AliasTarget) (remainder : String) :
    (target.candidate remainder).IsNormal :=
  ⟨_, rfl⟩

/-- Resolution asks only about places. -/
theorem AliasTable.resolutionIn_congr {tree other : MemoryTree} (hresembles : tree.Resembles other)
    (table : AliasTable) (specifier : String) (file : Path) :
    table.resolutionIn other specifier file = table.resolutionIn tree specifier file := by
  have hreachable : other.reachable? = tree.reachable? := by
    funext directory candidates
    simp only [MemoryTree.reachable?, hresembles.located?_eq]
  rw [resolutionIn, resolutionIn, hreachable]

theorem AliasTable.rewiredIn_congr {tree other : MemoryTree} (hresembles : tree.Resembles other)
    (table : AliasTable) (text : String) (file : Path) :
    table.rewiredIn other text file = table.rewiredIn tree text file := by
  simp only [rewiredIn, resolutionIn_congr hresembles]

/-! ## The programs -/

namespace Program

theorem finds_isFile (path : Path) : (isFile path).Finds tree (· = tree.isFile path) := by
  refine (finds_describe path).bind ?_
  rintro _ rfl
  rw [MemoryTree.isFile]
  cases (tree.describe path).1 <;> exact finds_pure rfl

theorem finds_firstFile (paths : List Path) :
    (firstFile paths).Finds tree (· = paths.find? tree.isFile) := by
  induction paths with
  | nil => exact finds_pure rfl
  | cons path others ih =>
      refine (finds_isFile path).bind ?_
      rintro _ rfl
      cases hfile : tree.isFile path with
      | true => exact finds_pure (by rw [List.find?_cons_of_pos hfile])
      | false =>
          rw [List.find?_cons_of_neg (by simp [hfile])]
          exact ih

theorem finds_locate {candidate : Path} (hcandidate : candidate.IsNormal) :
    (locate candidate).Finds tree (· = tree.located? candidate) := by
  refine (finds_lookupProbe hcandidate).bind fun known hknown => ?_
  cases known with
  | some found => exact finds_pure (hknown found rfl)
  | none =>
      refine (finds_firstFile _).bind ?_
      rintro _ rfl
      exact (finds_storeProbe hcandidate).bind fun _ _ => finds_pure rfl

theorem finds_specifierFrom {target : Path} (htarget : target.IsNormal) (directory : Path) :
    (specifierFrom directory target).Finds tree (· = relativeSpecifier? directory target) := by
  refine (finds_lookupSpecifier htarget directory).bind fun known hknown => ?_
  cases known with
  | some specifier => exact finds_pure (hknown specifier rfl).symm
  | none =>
      cases hspecifier : relativeSpecifier? directory target with
      | none => exact finds_pure rfl
      | some specifier =>
          exact (finds_storeSpecifier htarget hspecifier).bind fun _ _ => finds_pure rfl

theorem finds_firstReachable (directory : Path) {candidates : List Path}
    (hcandidates : ∀ candidate ∈ candidates, candidate.IsNormal) :
    (firstReachable directory candidates).Finds tree
      (· = tree.reachable? directory candidates) := by
  induction candidates with
  | nil => exact finds_pure rfl
  | cons candidate others ih =>
      obtain ⟨hcandidate, hothers⟩ := List.forall_mem_cons.mp hcandidates
      rw [MemoryTree.reachable?, List.findSome?_cons]
      refine (finds_locate hcandidate).bind ?_
      rintro _ rfl
      cases tree.located? candidate with
      | none => exact ih hothers
      | some located =>
          refine (finds_specifierFrom hcandidate directory).bind ?_
          rintro _ rfl
          rw [Option.bind_some]
          cases relativeSpecifier? directory candidate with
          | none => exact ih hothers
          | some specifier => exact finds_pure rfl

end Program

/-- **Resolution.**  Whatever the cache holds that is true, and whatever others do between its
requests, resolving a specifier finds what becomes of it in the tree. -/
theorem AliasTable.finds_resolve (table : AliasTable) (specifier : String) (file : Path) :
    (table.resolve specifier file).Finds tree (· = table.resolutionIn tree specifier file) := by
  unfold AliasTable.resolve AliasTable.resolutionIn
  cases table.match? specifier with
  | none => exact Program.finds_pure rfl
  | some found =>
      obtain ⟨entry, remainder⟩ := found
      have hcandidates : ∀ candidate ∈ entry.targets.map (·.candidate remainder),
          candidate.IsNormal := by
        simp only [List.forall_mem_map]
        exact fun target _ => target.isNormal_candidate remainder
      refine (Program.finds_firstReachable _ hcandidates).bind ?_
      rintro _ rfl
      dsimp only
      generalize tree.reachable? _ _ = reached
      cases reached with
      | some relative => exact Program.finds_pure rfl
      | none =>
          dsimp only
          split
          · exact Program.finds_pure rfl
          · exact (Program.finds_emit _).bind fun _ _ => Program.finds_pure rfl

theorem AliasTable.finds_resolveAll (table : AliasTable) (file : Path)
    (occurrences : List Occurrence) :
    (table.resolveAll file occurrences).Finds tree
      (· = occurrences.map fun occurrence =>
        (occurrence, table.resolutionIn tree occurrence.specifier file)) := by
  induction occurrences with
  | nil => exact Program.finds_pure rfl
  | cons occurrence others ih =>
      refine (table.finds_resolve _ _).bind ?_
      rintro _ rfl
      refine ih.bind ?_
      rintro _ rfl
      exact Program.finds_pure rfl

/-- **Rewiring.**  Rewiring a text finds what becomes of it in the tree. -/
theorem AliasTable.finds_rewire (table : AliasTable) (text : String) (file : Path) :
    (table.rewire text file).Finds tree (· = table.rewiredIn tree text file) := by
  refine (table.finds_resolveAll file _).bind ?_
  rintro _ rfl
  exact Program.finds_pure rfl

/-- A rewiring that runs alone, with an empty cache. -/
theorem AliasTable.run_rewire (table : AliasTable) (tree : MemoryTree) (text : String)
    (file : Path) :
    ((table.rewire text file).run (World.start tree)).1 = table.rewiredIn tree text file :=
  ((table.finds_rewire text file).run (World.agrees_start (.refl tree) (List.suffix_refl _))).2.1

end Dealias
