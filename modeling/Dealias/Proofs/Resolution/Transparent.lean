import Dealias.Proofs.Resolution
import Mathlib.Data.List.Forall2

/-!
# The cache is transparent

`AliasTable.Resolves` says what resolution has to answer, target by target and without a cache.  It
has one answer for each specifier and file (`AliasTable.resolves_iff`), and a sequence of calls that
share one cache gives just these answers (`AliasTable.resolveEach_transparent`).

The calls fill the cache for each other, through other aliases and for other files.  What they leave
there is true of the tree (`World.Agrees`), so a call that finds it answers as if it had looked.
-/

namespace Dealias

variable {tree : MemoryTree}

/-! ## The reference -/

/-- Whether a regular file backs a candidate, bare or with one of the known extensions. -/
def MemoryTree.Backs (tree : MemoryTree) (candidate : Path) : Prop :=
  ∃ path ∈ candidate :: ["js", "jsx", "ts", "tsx", "d.ts", "json"].map candidate.appendExtension,
    ∃ place, tree.resolve? path = some place ∧ tree.hasFile place = true

/-- What becomes of a specifier of a file, by the targets of its alias in declared order. -/
inductive AliasTable.Resolves (table : AliasTable) (tree : MemoryTree) (specifier : String)
    (file : Path) : Resolution → Prop
  | notMatched (hmatch : table.match? specifier = none) :
      Resolves table tree specifier file .notAliased
  /-- The first target that is backed and can be reached wins. -/
  | reached (entry : Alias) (remainder : String) (front back : List AliasTarget)
      (target : AliasTarget) (address : String)
      (hmatch : table.match? specifier = some (entry, remainder))
      (htargets : entry.targets = front ++ target :: back)
      (hfront : ∀ other ∈ front, tree.Backs (other.candidate remainder) →
        relativeSpecifier? (importingDirectory file) (other.candidate remainder) = none)
      (hbacks : tree.Backs (target.candidate remainder))
      (haddress : relativeSpecifier? (importingDirectory file) (target.candidate remainder) =
        some address) :
      Resolves table tree specifier file (.resolved address)
  /-- Without such a target, it depends on the alias whether anything is missing. -/
  | notReached (entry : Alias) (remainder : String)
      (hmatch : table.match? specifier = some (entry, remainder))
      (htargets : ∀ target ∈ entry.targets, tree.Backs (target.candidate remainder) →
        relativeSpecifier? (importingDirectory file) (target.candidate remainder) = none) :
      Resolves table tree specifier file
        (if entry.isCatchAll then .notAliased else .unresolved entry.pattern)

theorem MemoryTree.isFile_eq_true_iff {path : Path} :
    tree.isFile path = true ↔
      ∃ place, tree.resolve? path = some place ∧ tree.hasFile place = true := by
  unfold isFile describe
  cases tree.resolve? path with
  | none => simp
  | some place =>
      cases hfile : tree.hasFile place <;> cases hdirectory : tree.hasDirectory place <;>
        cases tree.hasLink path.location <;> simp [hfile, hdirectory]

theorem MemoryTree.backs_iff {candidate : Path} :
    tree.Backs candidate ↔ (tree.located? candidate).isSome = true := by
  rw [located?, List.find?_isSome]
  simp only [isFile_eq_true_iff]
  exact Iff.rfl

/-- The address of a candidate, if it is backed and can be reached. -/
theorem MemoryTree.bind_located?_eq_none_iff {candidate directory : Path} :
    ((tree.located? candidate).bind fun _ => relativeSpecifier? directory candidate) = none ↔
      (tree.Backs candidate → relativeSpecifier? directory candidate = none) := by
  rw [backs_iff]
  cases tree.located? candidate <;> simp

theorem AliasTable.resolves_resolutionIn (table : AliasTable) (tree : MemoryTree)
    (specifier : String) (file : Path) :
    table.Resolves tree specifier file (table.resolutionIn tree specifier file) := by
  unfold resolutionIn MemoryTree.reachable?
  cases hmatch : table.match? specifier with
  | none => exact .notMatched hmatch
  | some found =>
      obtain ⟨entry, remainder⟩ := found
      dsimp only
      rw [List.findSome?_map]
      cases hreached : entry.targets.findSome? _ with
      | none =>
          refine .notReached entry remainder hmatch fun target htarget => ?_
          have hnone := List.findSome?_eq_none_iff.mp hreached target htarget
          exact MemoryTree.bind_located?_eq_none_iff.mp hnone
      | some address =>
          obtain ⟨front, target, back, htargets, hsome, hfront⟩ :=
            List.findSome?_eq_some_iff.mp hreached
          obtain ⟨located, hlocated, haddress⟩ := Option.bind_eq_some_iff.mp hsome
          refine .reached entry remainder front back target address hmatch htargets ?_ ?_ haddress
          · intro other hother
            exact MemoryTree.bind_located?_eq_none_iff.mp (hfront other hother)
          · exact MemoryTree.backs_iff.mpr (hlocated ▸ rfl)

/-- Nothing else can become of a specifier. -/
theorem AliasTable.Resolves.eq {table : AliasTable} {specifier : String} {file : Path}
    {resolution : Resolution} (hresolves : table.Resolves tree specifier file resolution) :
    resolution = table.resolutionIn tree specifier file := by
  unfold resolutionIn MemoryTree.reachable?
  cases hresolves with
  | notMatched hmatch => rw [hmatch]
  | reached entry remainder front back target address hmatch htargets hfront hbacks haddress =>
      have hsome : (entry.targets.map fun target => target.candidate remainder).findSome?
          (fun candidate => (tree.located? candidate).bind fun _ =>
            relativeSpecifier? (importingDirectory file) candidate) = some address := by
        rw [List.findSome?_map, List.findSome?_eq_some_iff]
        refine ⟨front, target, back, htargets, ?_, fun other hother => ?_⟩
        · obtain ⟨located, hlocated⟩ := Option.isSome_iff_exists.mp (MemoryTree.backs_iff.mp hbacks)
          simp [hlocated, haddress]
        · exact MemoryTree.bind_located?_eq_none_iff.mpr (hfront other hother)
      rw [hmatch]
      dsimp only
      rw [hsome]
  | notReached entry remainder hmatch htargets =>
      have hnone : (entry.targets.map fun target => target.candidate remainder).findSome?
          (fun candidate => (tree.located? candidate).bind fun _ =>
            relativeSpecifier? (importingDirectory file) candidate) = none := by
        rw [List.findSome?_map, List.findSome?_eq_none_iff]
        intro target htarget
        exact MemoryTree.bind_located?_eq_none_iff.mpr (htargets target htarget)
      rw [hmatch]
      dsimp only
      rw [hnone]

theorem AliasTable.resolves_iff {table : AliasTable} {specifier : String} {file : Path}
    {resolution : Resolution} :
    table.Resolves tree specifier file resolution ↔
      resolution = table.resolutionIn tree specifier file := by
  constructor
  · exact Resolves.eq
  · rintro rfl
    exact table.resolves_resolutionIn tree specifier file

/-! ## Sequences of calls -/

/-- Resolve one specifier after the other, each for a file, with one cache. -/
def AliasTable.resolveEach (table : AliasTable) : List (String × Path) → Program (List Resolution)
  | [] => return []
  | call :: calls => do
    let resolution ← table.resolve call.1 call.2
    return resolution :: (← table.resolveEach calls)

theorem AliasTable.finds_resolveEach (table : AliasTable) (calls : List (String × Path)) :
    (table.resolveEach calls).Finds tree
      (· = calls.map fun call => table.resolutionIn tree call.1 call.2) := by
  induction calls with
  | nil => exact Program.finds_pure rfl
  | cons call calls ih =>
      refine (table.finds_resolve call.1 call.2).bind ?_
      rintro _ rfl
      refine ih.bind ?_
      rintro _ rfl
      exact Program.finds_pure rfl

/-- **Transparency.**  However many specifiers are resolved before, with whatever aliases and for
whatever files, each call with a cache that is empty at the start answers what the reference
answers, and the reference has no other answer. -/
theorem AliasTable.resolveEach_transparent (table : AliasTable) (tree : MemoryTree)
    (calls : List (String × Path)) :
    List.Forall₂ (fun call answer => ∀ resolution,
        table.Resolves tree call.1 call.2 resolution ↔ resolution = answer)
      calls ((table.resolveEach calls).run (World.start tree)).1 := by
  have hstart : (World.start tree).Agrees tree :=
    World.agrees_start (.refl tree) (List.suffix_refl _)
  rw [((table.finds_resolveEach calls).run hstart).2.1, List.forall₂_map_right_iff,
    List.forall₂_same]
  intro call _ resolution
  exact resolves_iff

end Dealias
