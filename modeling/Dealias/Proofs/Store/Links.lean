import Dealias.Proofs.Store.Memory

/-!
# Following links below a place

A hop replaces the front of a place (`MemoryTree.Hop`).  When some link stands at a place or above
it, the link that the hop takes is the one nearest to the root, so it is also taken below that
place, and what lies below is carried along (`MemoryTree.Hop.append`).  Hence a path below `root`
comes to the place that `root` leads to, with the same steps behind it, and goes on from there:
`resolve?_below_iff` says when it ends there.
-/

namespace Dealias

theorem Location.join_nil (base : Location) : join base [] = base :=
  List.append_nil base

theorem Location.join_append (base : Location) {tail : Location} (htail : tail ≠ [])
    (rest : Location) : join base (tail ++ rest) = join base tail ++ rest := by
  obtain ⟨first, tail, rfl⟩ := List.exists_cons_of_ne_nil htail
  cases first <;> by_cases hbase : base = [] <;> simp [join, hbase]

namespace MemoryTree

variable {links : List (Location × Location)} {place next real rest : Location} {steps : Nat}

/-! ## Hops -/

/-- A hop from a place: of the links that are the place or an ancestor of it, the first one is
replaced by its target. -/
inductive Hop (links : List (Location × Location)) : Location → Location → Prop
  | replace {link : Location × Location} {rest : Location} (hlink : link ∈ links)
      (hfirst : ∀ other ∈ links, other.1 <+: link.1 ++ rest →
        (Location.compare link.1 other.1).isLE) :
      Hop links (link.1 ++ rest) (Location.join link.2 rest)

theorem replaced_eq (target rest : Location) :
    (if rest = [] then target else Location.join target rest) = Location.join target rest := by
  split
  · rename_i hempty
    rw [hempty, Location.join_nil]
  · rfl

/-- A hop replaces the place of some link by its target. -/
theorem exists_of_hop? (hhop : hop? links place = some next) :
    ∃ link ∈ links, ∃ rest, place = link.1 ++ rest ∧ next = Location.join link.2 rest := by
  obtain ⟨link, hlink, hsome⟩ := List.exists_of_findSome?_eq_some hhop
  obtain ⟨rest, hbelow, rfl⟩ := Option.map_eq_some_iff.mp hsome
  exact ⟨link, hlink, rest, Location.below?_eq_some_iff.mp hbelow, replaced_eq link.2 rest⟩

/-- The search from the front finds the first link, because links stand in the order of places. -/
theorem hop?_eq_some_iff
    (hordered : links.Pairwise fun first second => Location.compare first.1 second.1 = .lt) :
    hop? links place = some next ↔ Hop links place next := by
  constructor
  · intro hhop
    obtain ⟨front, link, back, rfl, hlink, hfront⟩ := List.findSome?_eq_some_iff.mp hhop
    obtain ⟨rest, hrest, rfl⟩ := Option.map_eq_some_iff.mp hlink
    obtain rfl := Location.below?_eq_some_iff.mp hrest
    rw [replaced_eq]
    refine .replace (List.mem_append_right _ (List.mem_cons_self ..)) fun other hother habove => ?_
    rcases List.mem_append.mp hother with hmem | hmem
    · have hnone := hfront other hmem
      rw [Option.map_eq_none_iff, Location.below?_eq_none_iff] at hnone
      exact absurd habove hnone
    · rcases List.mem_cons.mp hmem with rfl | hmem
      · exact Std.ReflCmp.isLE_rfl
      · have hbehind : Location.compare link.1 other.1 = .lt :=
          (List.pairwise_cons.mp (List.pairwise_append.mp hordered).2.1).1 other hmem
        rw [hbehind]
        rfl
  · rintro ⟨hlink, hfirst⟩
    rename_i link rest
    obtain ⟨front, back, rfl⟩ := List.append_of_mem hlink
    refine List.findSome?_eq_some_iff.mpr ⟨front, link, back, rfl, ?_, fun other hother => ?_⟩
    · rw [Location.below?_eq_some_iff.mpr rfl, Option.map_some, replaced_eq]
    · rw [Option.map_eq_none_iff, Location.below?_eq_none_iff]
      intro habove
      have hbefore : Location.compare other.1 link.1 = .lt :=
        (List.pairwise_append.mp hordered).2.2 other hother link (List.mem_cons_self ..)
      have hbehind := hfirst other (List.mem_append_left _ hother) habove
      rw [Std.OrientedCmp.gt_of_lt hbefore] at hbehind
      cases hbehind

/-- Where a hop from a place leads, a hop from below the place leads to below that. -/
theorem Hop.append (hhop : Hop links place next) (hrest : ∀ step ∈ rest, step.IsStep) :
    Hop links (place ++ rest) (next ++ rest) := by
  obtain ⟨hlink, hfirst⟩ := hhop
  rename_i link tail
  have hjoin : Location.join link.2 tail ++ rest = Location.join link.2 (tail ++ rest) := by
    by_cases hempty : tail = []
    · rw [hempty, Location.join_nil, List.nil_append, Location.join_steps _ hrest]
    · rw [Location.join_append _ hempty]
  rw [hjoin, List.append_assoc]
  refine .replace hlink fun other hother hbelow => ?_
  -- a link further down than the one that is taken stands behind it
  rcases List.prefix_or_prefix_of_prefix hbelow (List.prefix_append ..) with habove | ⟨more, hmore⟩
  · exact hfirst other hother (habove.trans (List.prefix_append ..))
  · cases more with
    | nil =>
        rw [List.append_nil] at hmore
        rw [hmore]
        exact Std.ReflCmp.isLE_rfl
    | cons component more =>
        rw [← hmore, Location.compare_append]
        rfl

theorem hop?_append
    (hordered : links.Pairwise fun first second => Location.compare first.1 second.1 = .lt)
    (hrest : ∀ step ∈ rest, step.IsStep) (hhop : hop? links place = some next) :
    hop? links (place ++ rest) = some (next ++ rest) :=
  (hop?_eq_some_iff hordered).mpr (((hop?_eq_some_iff hordered).mp hhop).append hrest)

/-! ## Following -/

theorem not_prefix_of_follow (hfollow : follow links steps place = some real) :
    ∀ link ∈ links, ¬ link.1 <+: real := by
  induction steps generalizing place with
  | zero => cases hfollow
  | succ steps ih =>
      rw [follow] at hfollow
      split at hfollow
      · rename_i hhop
        obtain rfl := Option.some.inj hfollow
        exact hop?_eq_none_iff.mp hhop
      · exact ih hfollow

/-- From below a place, links are followed to below where they are followed to from the place, and
at least one step is left. -/
theorem follow_append
    (hordered : links.Pairwise fun first second => Location.compare first.1 second.1 = .lt)
    (hrest : ∀ step ∈ rest, step.IsStep) (hfollow : follow links steps place = some real) :
    ∃ left, follow links steps (place ++ rest) = follow links (left + 1) (real ++ rest) := by
  induction steps generalizing place with
  | zero => cases hfollow
  | succ steps ih =>
      rw [follow] at hfollow
      split at hfollow
      · obtain rfl := Option.some.inj hfollow
        exact ⟨steps, rfl⟩
      · rename_i next hhop
        obtain ⟨left, hleft⟩ := ih hfollow
        rw [follow, hop?_append hordered hrest hhop]
        exact ⟨left, hleft⟩

/-- The empty place leads nowhere else. -/
theorem eq_nil_of_follow_nil (hfollow : follow links steps [] = some real) : real = [] := by
  cases steps with
  | zero => cases hfollow
  | succ steps =>
      -- a link at the empty place would be above every place, so also above the last one
      have hhop : hop? links [] = none := by
        refine hop?_eq_none_iff.mpr fun link hlink hprefix => ?_
        have hempty : link.1 = [] := List.prefix_nil.mp hprefix
        exact not_prefix_of_follow hfollow link hlink (hempty ▸ List.nil_prefix)
      rw [follow, hhop] at hfollow
      exact (Option.some.inj hfollow).symm

/-! ## Paths below a root -/

variable {tree : MemoryTree} {root file : Path}

theorem isPlain_of_resolve? (hreal : tree.resolve? root = some real) : tree.IsPlain real :=
  not_prefix_of_follow hreal

/-- **Below a root.**  A path below a root is resolved to below the place that the root leads to
exactly when no link stands on the way there. -/
theorem resolve?_below_iff (hreal : tree.resolve? root = some real)
    (hfile : file.location = root.location ++ rest) :
    tree.resolve? file = some (real ++ rest) ↔ tree.IsPlain (real ++ rest) := by
  refine ⟨isPlain_of_resolve?, fun hplain => ?_⟩
  by_cases hroot : root.location = []
  · rw [resolve?, hroot] at hreal
    obtain rfl := eq_nil_of_follow_nil hreal
    rw [hroot] at hfile
    rw [← hfile] at hplain ⊢
    exact hplain.resolve?_eq
  · have hrest : ∀ step ∈ rest, step.IsStep :=
      Path.Names.forall_isStep ⟨file, hfile⟩ hroot
    obtain ⟨left, hleft⟩ := follow_append tree.ordered hrest hreal
    rw [resolve?, hfile, hleft]
    exact hplain.follow_eq left

end MemoryTree
end Dealias
