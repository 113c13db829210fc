import Dealias.Path.Basic
import Dealias.Number.Rounding

/-!
# The resolution cache

Two tables that grow during a run: which file backs a candidate, if any, and which specifier
reaches a target from a directory.  Keys are compared by components.  Every look-up is counted as a
hit or as a miss.
-/

namespace Dealias

/-- How often look-ups found something. -/
structure CacheCounts where
  hits : Nat
  misses : Nat
deriving DecidableEq, Repr, Inhabited

namespace CacheCounts

/-- Count one more look-up. -/
def record (counts : CacheCounts) (found : Bool) : CacheCounts :=
  if found then { counts with hits := counts.hits + 1 }
  else { counts with misses := counts.misses + 1 }

/-- The share of hits, as a quotient of numbers with 53 significant bits. -/
def hitRate (counts : CacheCounts) : Rat :=
  let total := counts.hits + counts.misses
  if total = 0 then 0
  else roundToDouble (roundToDouble (mkRat counts.hits 1) / roundToDouble (mkRat total 1))

end CacheCounts

/-- The cache of a run.  The latest entry for a key stands first. -/
structure Cache where
  probes : List (Location × Option Path)
  specifiers : List ((Location × Location) × String)
  counts : CacheCounts

namespace Cache

/-- The cache at the start of a run. -/
def empty : Cache where
  probes := []
  specifiers := []
  counts := ⟨0, 0⟩

instance : Inhabited Cache := ⟨empty⟩

/-- What is known about a candidate: nothing, that no file backs it, or the file. -/
def lookupProbe (cache : Cache) (candidate : Path) : Option (Option Path) × Cache :=
  let found := cache.probes.lookup candidate.location
  (found, { cache with counts := cache.counts.record found.isSome })

/-- Remember the file behind a candidate, or that there is none. -/
def storeProbe (cache : Cache) (candidate : Path) (found : Option Path) : Cache :=
  { cache with probes := (candidate.location, found) :: cache.probes }

/-- The specifier known for a target and a directory. -/
def lookupSpecifier (cache : Cache) (target directory : Path) : Option String × Cache :=
  let found := cache.specifiers.lookup (target.location, directory.location)
  (found, { cache with counts := cache.counts.record found.isSome })

/-- Remember the specifier that reaches a target from a directory. -/
def storeSpecifier (cache : Cache) (target directory : Path) (specifier : String) : Cache :=
  { cache with
    specifiers := ((target.location, directory.location), specifier) :: cache.specifiers }

end Cache
end Dealias
