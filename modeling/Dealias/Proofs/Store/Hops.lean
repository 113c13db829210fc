import Dealias.Proofs.Store.Links

/-!
# How many hops are followed

A hop replaces the first link, in the order of places, that is a place or an ancestor of it by its
target (`MemoryTree.Hop`).  Following links takes such hops one after the other, and each of its
steps either takes a hop or finds that none is left.  So the step that finds the end counts like a
hop: with 40 steps at most 39 hops come to an end (`MemoryTree.follow_eq_some_iff`), and a path is
given up as soon as 40 hops are possible (`MemoryTree.follow_eq_none_iff`).

That is one hop less than the limit promises.  A chain of exactly 40 links is followed to its end
and is taken for a loop all the same, and `MemoryTree.givesUpBeyond_iff` says that this is the only
case in which the limit is off.
-/

namespace Dealias
namespace MemoryTree

variable {links : List (Location × Location)} {place next last real : Location}
  {count steps : Nat}

/-! ## Runs of hops -/

/-- A number of hops, one after the other. -/
inductive Hops (links : List (Location × Location)) : Nat → Location → Location → Prop
  | none (place : Location) : Hops links 0 place place
  | step {count : Nat} {place next last : Location} (hhop : Hop links place next)
      (hrest : Hops links count next last) : Hops links (count + 1) place last

/-- Another hop behind the last one. -/
theorem Hops.concat (hhops : Hops links count place last) (hhop : Hop links last next) :
    Hops links (count + 1) place next := by
  induction hhops with
  | none place => exact .step hhop (.none next)
  | step hfirst _ ih => exact .step hfirst (ih hhop)

/-- A run of hops begins with shorter runs. -/
theorem Hops.shorten {fewer : Nat} (hhops : Hops links count place last) (hfewer : fewer ≤ count) :
    ∃ between, Hops links fewer place between := by
  induction hhops generalizing fewer with
  | none place =>
      obtain rfl := Nat.le_zero.mp hfewer
      exact ⟨place, .none place⟩
  | step hhop _ ih =>
      cases fewer with
      | zero => exact ⟨_, .none _⟩
      | succ fewer =>
          obtain ⟨between, hbetween⟩ := ih (Nat.le_of_succ_le_succ hfewer)
          exact ⟨between, .step hhop hbetween⟩

/-! ## Following -/

section Ordered

variable (hordered : links.Pairwise fun first second => Location.compare first.1 second.1 = .lt)
include hordered

/-- There is one hop at most from a place, as there is one first link. -/
theorem Hop.unique (hhop : Hop links place next) (hother : Hop links place last) : last = next :=
  Option.some.inj (((hop?_eq_some_iff hordered).mpr hother).symm.trans
    ((hop?_eq_some_iff hordered).mpr hhop))

theorem hops_succ_iff (hhop : Hop links place next) :
    Hops links (count + 1) place last ↔ Hops links count next last := by
  refine ⟨fun hhops => ?_, .step hhop⟩
  cases hhops with
  | step hfirst hrest => exact hhop.unique hordered hfirst ▸ hrest

/-- Following links comes to a place exactly when fewer hops than steps lead there and no hop leads
away from it. -/
theorem follow_eq_some_iff :
    follow links steps place = some real ↔
      ∃ count < steps, Hops links count place real ∧ ¬ ∃ next, Hop links real next := by
  induction steps generalizing place with
  | zero => simp [follow]
  | succ steps ih =>
      rw [follow]
      cases hhop : hop? links place with
      | none =>
          have hend : ¬ ∃ next, Hop links place next := by
            simp [← hop?_eq_some_iff hordered, hhop]
          constructor
          · rintro ⟨⟩
            exact ⟨0, Nat.succ_pos steps, .none _, hend⟩
          · rintro ⟨count, -, hhops, -⟩
            cases hhops with
            | none => rfl
            | step hfirst _ => exact absurd ⟨_, hfirst⟩ hend
      | some next =>
          have hnext := (hop?_eq_some_iff hordered).mp hhop
          simp only [ih]
          constructor
          · rintro ⟨count, hcount, hhops, hend⟩
            exact ⟨count + 1, Nat.succ_lt_succ hcount, .step hnext hhops, hend⟩
          · rintro ⟨count, hcount, hhops, hend⟩
            cases count with
            | zero =>
                cases hhops
                exact absurd ⟨next, hnext⟩ hend
            | succ count =>
                exact ⟨count, Nat.lt_of_succ_lt_succ hcount,
                  (hops_succ_iff hordered hnext).mp hhops, hend⟩

/-- Following links is given up exactly when every step can take a hop. -/
theorem follow_eq_none_iff :
    follow links steps place = none ↔ ∃ last, Hops links steps place last := by
  induction steps generalizing place with
  | zero => exact iff_of_true rfl ⟨place, .none place⟩
  | succ steps ih =>
      rw [follow]
      cases hhop : hop? links place with
      | none =>
          refine iff_of_false (Option.some_ne_none _) ?_
          rintro ⟨last, hhops⟩
          cases hhops with
          | step hfirst _ =>
              rw [(hop?_eq_some_iff hordered).mpr hfirst] at hhop
              cases hhop
      | some next =>
          have hnext := (hop?_eq_some_iff hordered).mp hhop
          simp only [ih, hops_succ_iff hordered hnext]

end Ordered

/-! ## The limit -/

/-- Whether a path is resolved to the end of its links as long as no more than a number of hops
leads there, and is given up only when more hops are possible. -/
structure GivesUpBeyond (tree : MemoryTree) (path : Path) (limit : Nat) : Prop where
  resolved : ∀ real, tree.resolve? path = some real ↔
    ∃ count ≤ limit, Hops tree.links count path.location real ∧
      ¬ ∃ next, Hop tree.links real next
  unresolved : tree.resolve? path = none ↔
    ∃ count > limit, ∃ last, Hops tree.links count path.location last

theorem givesUpBeyond_pred (tree : MemoryTree) (path : Path) :
    tree.GivesUpBeyond path (linkSteps - 1) where
  resolved real := by
    have hsteps : 0 < linkSteps := by decide
    simp only [← Nat.lt_iff_le_pred hsteps]
    exact follow_eq_some_iff tree.ordered
  unresolved := by
    refine (follow_eq_none_iff tree.ordered).trans ⟨fun hhops => ⟨linkSteps, by decide, hhops⟩, ?_⟩
    rintro ⟨count, hcount, last, hhops⟩
    exact hhops.shorten (by omega)

/-- **The limit is off by one.**  Every path is resolved as long as fewer than 40 hops lead to the
end of its links, and is given up from the 40th hop on.  The limit of 40 hops itself is kept
exactly for the paths that are not at their end after 40 hops. -/
theorem givesUpBeyond_iff (tree : MemoryTree) (path : Path) :
    tree.GivesUpBeyond path (linkSteps - 1) ∧
      (tree.GivesUpBeyond path linkSteps ↔
        ¬ ∃ last, Hops tree.links linkSteps path.location last ∧
          ¬ ∃ next, Hop tree.links last next) := by
  have hcode := tree.givesUpBeyond_pred path
  refine ⟨hcode, ?_, ?_⟩
  · rintro hlimit ⟨last, hhops, hend⟩
    have hsome := (hlimit.resolved last).mpr ⟨linkSteps, Nat.le_refl _, hhops, hend⟩
    have hnone := hcode.unresolved.mpr ⟨linkSteps, by decide, last, hhops⟩
    rw [hsome] at hnone
    cases hnone
  · intro hexact
    refine ⟨fun real => (hcode.resolved real).trans ⟨?_, ?_⟩, hcode.unresolved.trans ⟨?_, ?_⟩⟩
    · rintro ⟨count, hcount, hhops, hend⟩
      exact ⟨count, by omega, hhops, hend⟩
    · rintro ⟨count, hcount, hhops, hend⟩
      have hne : count ≠ linkSteps := by
        rintro rfl
        exact hexact ⟨real, hhops, hend⟩
      exact ⟨count, by omega, hhops, hend⟩
    · rintro ⟨count, hcount, last, hhops⟩
      obtain ⟨between, hbetween⟩ : ∃ between, Hops tree.links linkSteps path.location between :=
        hhops.shorten (by omega)
      -- the hops go on behind the 40th, or it would have been the last
      have hnext : ∃ next, Hop tree.links between next := by
        by_contra hend
        exact hexact ⟨between, hbetween, hend⟩
      obtain ⟨next, hnext⟩ := hnext
      exact ⟨linkSteps + 1, Nat.lt_succ_self _, next, hbetween.concat hnext⟩
    · rintro ⟨count, hcount, last, hhops⟩
      exact ⟨count, by omega, last, hhops⟩

/-- The places of a chain. -/
def chainPlace (index : Nat) : Location := [.root, .name (toString index)]

/-- A chain of links, each to the next place, with a file behind the last one. -/
def chain (count : Nat) : MemoryTree :=
  (List.range count).foldl
    (fun tree index => tree.putLink (chainPlace index) (chainPlace (index + 1)))
    ((empty ⟨"/"⟩).putFile (chainPlace count) "x".toUTF8)

/-- A chain of 40 links ends at a file, and is taken for a loop. -/
theorem chain_given_up_sample :
    (chain linkSteps).hasFile (chainPlace linkSteps) = true ∧
      (chain linkSteps).resolve? ⟨"/0"⟩ = none ∧
      ¬ (chain linkSteps).GivesUpBeyond ⟨"/0"⟩ linkSteps := by
  have hloop : (chain linkSteps).resolve? ⟨"/0"⟩ = none := by decide +kernel
  have hmore : follow (chain linkSteps).links (linkSteps + 1) (Path.mk "/0").location =
      some (chainPlace linkSteps) := by decide +kernel
  refine ⟨by decide +kernel, hloop, fun hlimit => ?_⟩
  obtain ⟨count, hcount, hhops⟩ := (follow_eq_some_iff (chain linkSteps).ordered).mp hmore
  rw [(hlimit.resolved _).mpr ⟨count, Nat.le_of_lt_succ hcount, hhops⟩] at hloop
  cases hloop

end MemoryTree
end Dealias
