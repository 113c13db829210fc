import Dealias.Batch
import Dealias.Path.Order
import Mathlib.Data.List.Basic

/-!
# The order of paths

Paths are ordered by their locations.  Comparing locations is lawful, so sorting by `Path.le` leaves
an ascending list, and a list of paths at different places has only one ascending arrangement
(`Path.eq_of_sorted`).
-/

namespace Dealias

/-! ## Paths -/

theorem Path.le_iff {first second : Path} :
    first.le second = true ↔ (Location.compare first.location second.location).isLE := by
  rw [Path.le, Path.compare]
  cases Location.compare first.location second.location <;> decide

theorem Path.le_trans (first second third : Path) (hfirst : first.le second = true)
    (hsecond : second.le third = true) : first.le third = true := by
  rw [Path.le_iff] at *
  exact Std.TransCmp.isLE_trans hfirst hsecond

theorem Path.le_total (first second : Path) : (first.le second || second.le first) = true := by
  have hswap : Location.compare second.location first.location =
      (Location.compare first.location second.location).swap := Std.OrientedCmp.eq_swap
  rw [Bool.or_eq_true, Path.le_iff, Path.le_iff, hswap]
  cases Location.compare first.location second.location <;> simp

/-- Paths that are below each other in the order are at one place. -/
theorem Path.location_eq_of_le {first second : Path} (hfirst : first.le second = true)
    (hsecond : second.le first = true) : first.location = second.location := by
  rw [Path.le_iff] at *
  exact Std.LawfulEqCmp.eq_of_compare (Std.OrientedCmp.isLE_antisymm hfirst hsecond)

/-- Ascending paths at different places ascend strictly. -/
theorem Path.compare_eq_lt {first second : Path} (hle : first.le second = true)
    (hne : first.location ≠ second.location) : first.compare second = .lt := by
  rw [Path.le_iff] at hle
  change Location.compare first.location second.location = .lt
  cases hcompare : Location.compare first.location second.location with
  | lt => rfl
  | eq => exact absurd (Std.LawfulEqCmp.eq_of_compare hcompare) hne
  | gt =>
      rw [hcompare] at hle
      cases hle

/-! ## Sorting -/

theorem Path.pairwise_mergeSort (paths : List Path) :
    (paths.mergeSort Path.le).Pairwise fun first second => first.le second = true :=
  List.pairwise_mergeSort Path.le_trans Path.le_total paths

theorem FileReport.pairwise_mergeSort (reports : List FileReport) :
    (reports.mergeSort FileReport.le).Pairwise fun first second =>
      first.path.le second.path = true := by
  have htrans : ∀ first second third : FileReport, FileReport.le first second = true →
      FileReport.le second third = true → FileReport.le first third = true :=
    fun _ _ _ => Path.le_trans _ _ _
  have htotal : ∀ first second : FileReport,
      (FileReport.le first second || FileReport.le second first) = true :=
    fun _ _ => Path.le_total _ _
  exact List.pairwise_mergeSort htrans htotal reports

/-- **One arrangement.**  Two ascending lists of the same things are equal when no two of them are
at one place. -/
theorem Path.eq_of_sorted {Thing : Type} (path : Thing → Path) {first second : List Thing}
    (hfirst : first.Pairwise fun before after => (path before).le (path after) = true)
    (hsecond : second.Pairwise fun before after => (path before).le (path after) = true)
    (hperm : first.Perm second)
    (hapart : ∀ one ∈ first, ∀ other ∈ first,
      (path one).location = (path other).location → one = other) : first = second := by
  refine List.Perm.eq_of_pairwise ?_ hfirst hsecond hperm
  intro one other hone hother hbefore hafter
  exact hapart one hone other (hperm.mem_iff.mpr hother) (Path.location_eq_of_le hbefore hafter)

end Dealias
