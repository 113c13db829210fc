import Dealias.Proofs.Alias.Table
import Mathlib.Data.List.Nodup
import Mathlib.Data.List.Perm.Basic

/-!
# Which alias is tried first

Several aliases of a table may match one specifier: their literal parts are then all at its front,
so the longest one says most about it.  A table is sorted when it is built, and its first match is
taken.

* `AliasTable.match?_precedence`: the alias that is found outranks every other one that matches,
  there is one as soon as any alias matches, and the order in which the aliases are declared does
  not matter.

## Strategy

Literal parts of one length at the front of one specifier are the same, and a literal part and a
kind make a pattern.  Patterns are the keys of the alias map, so of two aliases that match one
specifier one outranks the other (`Alias.outranks_of_precedes`), and never both
(`Alias.Outranks.asymm`).  What a sorted table finds is thereby settled by which aliases it has,
whatever the sort does with aliases that never meet.
-/

namespace Dealias

/-- Whether a specifier is a path and not a name: relative to where it stands, or absolute. -/
def IsPathSpecifier (specifier : String) : Prop :=
  specifier = "." ∨ specifier = ".." ∨
    ∃ rest, specifier = "./" ++ rest ∨ specifier = "../" ++ rest ∨ specifier = "/" ++ rest

namespace Alias

/-- How an alias matches a specifier, and what is left of the specifier for the targets. -/
def Matches (entry : Alias) (specifier remainder : String) : Prop :=
  match entry.kind with
  | .leading => specifier = entry.literal ++ remainder
  | .exact => specifier = entry.literal ∧ remainder = ""

/-- Whether an alias wins over another one that matches the same specifier: its literal part is
longer, or it is exact and the other one only starts with the same text. -/
def Outranks (entry other : Alias) : Prop :=
  other.literal.utf8ByteSize < entry.literal.utf8ByteSize ∨
    (other.literal.utf8ByteSize = entry.literal.utf8ByteSize ∧
      entry.kind = .exact ∧ other.kind = .leading)

instance (entry other : Alias) : Decidable (entry.Outranks other) :=
  inferInstanceAs (Decidable (_ ∨ _))

end Alias

/-- The pattern that a literal part makes. -/
def AliasKind.pattern (literal : String) : AliasKind → String
  | leading => literal ++ "*"
  | exact => literal

/-- Whether an alias is named by the pattern that its literal part makes. -/
def Alias.IsNamed (entry : Alias) : Prop :=
  entry.pattern = entry.kind.pattern entry.literal

/-! ## Matches -/

theorem AliasTable.isFileAddress_iff {specifier : String} :
    isFileAddress specifier = true ↔ IsPathSpecifier specifier := by
  have htext : ∀ characters : List Char, ∃ text : String, characters = text.toList :=
    fun characters => ⟨String.ofList characters, String.toList_ofList.symm⟩
  simp only [IsPathSpecifier, ← String.toList_inj]
  unfold isFileAddress
  split <;> simp_all

instance (specifier : String) : Decidable (IsPathSpecifier specifier) :=
  decidable_of_iff _ AliasTable.isFileAddress_iff

theorem Alias.remainder?_eq_some_iff {entry : Alias} {specifier remainder : String} :
    entry.remainder? specifier = some remainder ↔ entry.Matches specifier remainder := by
  unfold remainder? Matches
  cases entry.kind with
  | leading =>
      simp only [Option.map_eq_some_iff, List.isPrefixOf?_eq_some_iff_append_eq]
      constructor
      · rintro ⟨rest, hrest, rfl⟩
        rw [← String.toList_inj, String.toList_append, String.toList_ofList, hrest]
      · rintro rfl
        exact ⟨remainder.toList, (String.toList_append ..).symm, String.ofList_toList⟩
  | exact =>
      simp only [Option.ite_none_right_eq_some, Option.some.injEq]
      exact and_congr_right fun _ => eq_comm

theorem Alias.remainder?_eq_none_iff {entry : Alias} {specifier : String} :
    entry.remainder? specifier = none ↔ ∀ remainder, ¬ entry.Matches specifier remainder := by
  simp only [Option.eq_none_iff_forall_ne_some, Ne, remainder?_eq_some_iff]

theorem Alias.Matches.startsWith_literal {entry : Alias} {specifier remainder : String}
    (hmatches : entry.Matches specifier remainder) :
    entry.literal.toList <+: specifier.toList := by
  unfold Matches at hmatches
  split at hmatches
  · rw [hmatches, String.toList_append]
    exact List.prefix_append ..
  · exact hmatches.1 ▸ List.prefix_refl _

/-! ## Ranks -/

theorem Alias.Outranks.asymm {entry other : Alias} (houtranks : entry.Outranks other) :
    ¬ other.Outranks entry := by
  unfold Outranks at *
  grind

theorem eq_of_prefix_of_utf8ByteSize_eq {first second : String}
    (hbegins : first.toList <+: second.toList)
    (hsize : first.utf8ByteSize = second.utf8ByteSize) : first = second := by
  obtain ⟨rest, hrest⟩ := hbegins
  have happend : second = first ++ String.ofList rest := by
    rw [← String.toList_inj, String.toList_append, String.toList_ofList, hrest]
  have hempty : (String.ofList rest).utf8ByteSize = 0 := by
    rw [happend, String.utf8ByteSize_append] at hsize
    omega
  rw [happend, String.utf8ByteSize_eq_zero_iff.mp hempty, String.append_empty]

theorem Alias.precedes_iff {first second : Alias} :
    first.precedes second = true ↔
      second.literal.utf8ByteSize < first.literal.utf8ByteSize ∨
        (second.literal.utf8ByteSize = first.literal.utf8ByteSize ∧
          (first.kind = .exact ∨ second.kind = .leading)) := by
  unfold precedes
  split <;> simp_all; omega

/-- Of two aliases that match one specifier, the one that is tried first outranks the other. -/
theorem Alias.outranks_of_precedes {entry other : Alias} {specifier remainder remainder' : String}
    (hprecedes : entry.precedes other = true) (hpattern : entry.pattern ≠ other.pattern)
    (hentry : entry.IsNamed) (hother : other.IsNamed)
    (hmatches : entry.Matches specifier remainder)
    (hmatches' : other.Matches specifier remainder') : entry.Outranks other := by
  rcases precedes_iff.mp hprecedes with hlonger | ⟨hsize, hkinds⟩
  · exact .inl hlonger
  · have hliteral : entry.literal = other.literal := by
      -- both literal parts are at the front of the specifier
      rcases List.prefix_or_prefix_of_prefix hmatches.startsWith_literal
        hmatches'.startsWith_literal with hbegins | hbegins
      · exact eq_of_prefix_of_utf8ByteSize_eq hbegins hsize.symm
      · exact (eq_of_prefix_of_utf8ByteSize_eq hbegins hsize).symm
    have hkind : entry.kind ≠ other.kind := fun hkind =>
      hpattern (by rw [hentry, hother, hkind, hliteral])
    refine .inr ⟨hsize, ?_⟩
    cases hfirst : entry.kind <;> cases hsecond : other.kind <;> simp_all

theorem Alias.precedes_trans (first second third : Alias) (hfirst : first.precedes second = true)
    (hsecond : second.precedes third = true) : first.precedes third = true := by
  rw [precedes_iff] at *
  grind

theorem Alias.precedes_total (first second : Alias) :
    (first.precedes second || second.precedes first) = true := by
  rw [Bool.or_eq_true, precedes_iff, precedes_iff]
  cases first.kind <;> cases second.kind <;> simp <;> omega

/-! ## Tables that are built -/

theorem splitAtWildcard_append {front : List Char} (hfront : wildcard ∉ front) (back : List Char) :
    splitAtWildcard (front ++ wildcard :: back) = (front, back) := by
  induction front with
  | nil => simp [splitAtWildcard]
  | cons first rest ih =>
      rw [List.mem_cons, not_or] at hfront
      simp [splitAtWildcard, ih hfront.2, Ne.symm hfront.1]

/-- A pattern is read as its literal part and, if it ends in one, its wildcard. -/
theorem eq_of_readPattern {pattern literal : String} {kind : AliasKind}
    (hread : readPattern pattern = .ok (literal, kind)) :
    pattern = kind.pattern literal := by
  unfold readPattern at hread
  dsimp only at hread
  split at hread
  · obtain ⟨rfl, rfl⟩ := Prod.mk.inj (Except.ok.inj hread)
    rfl
  · rename_i hcount
    split at hread
    · rename_i hlast
      obtain ⟨rfl, rfl⟩ := Prod.mk.inj (Except.ok.inj hread)
      obtain ⟨front, hfront⟩ := List.getLast?_eq_some_iff.mp hlast
      have hnone : wildcard ∉ front := by
        rw [hfront, List.count_append, List.count_singleton_self] at hcount
        exact List.count_eq_zero.mp (Nat.succ.inj hcount)
      rw [AliasKind.pattern, ← String.toList_inj, String.toList_append, String.toList_ofList,
        hfront, splitAtWildcard_append hnone]
      rfl
    · cases hread
  · cases hread

theorem Alias.isNamed_of_read {anchor : Path} {pattern : String} {targets : List String}
    {entry : Alias} (hread : Alias.read anchor pattern targets = .ok entry) :
    entry.pattern = pattern ∧ entry.IsNamed := by
  unfold Alias.read at hread
  obtain ⟨⟨literal, kind⟩, hpattern, hread⟩ := bind_eq_ok_iff.mp hread
  dsimp only at hread
  split at hread
  · cases hread
  · obtain ⟨targets, -, hread⟩ := bind_eq_ok_iff.mp hread
    obtain rfl := Except.ok.inj hread
    exact ⟨rfl, eq_of_readPattern hpattern⟩

namespace AliasTable

/-- What building a table leaves: its aliases are named by different patterns and stand in the order
in which they are tried. -/
structure Ranked (table : AliasTable) : Prop where
  sorted : table.entries.Pairwise fun first second => first.precedes second = true
  distinct : (table.entries.map Alias.pattern).Nodup
  named : ∀ entry ∈ table.entries, entry.IsNamed

/-- The aliases of a table are read one from each entry of the alias map. -/
theorem exists_of_build {paths : OrderedMap (List String)} {outDir baseUrl : Path}
    {table : AliasTable} (hbuild : build paths outDir baseUrl = .ok table) :
    ∃ entries, List.Forall₂ (fun source entry =>
        Alias.read (baseUrl.anchor outDir) source.1 source.2 = .ok entry) paths.entries entries ∧
      table = ⟨entries.mergeSort Alias.precedes⟩ := by
  obtain ⟨entries, hentries, hbuild⟩ := bind_eq_ok_iff.mp hbuild
  exact ⟨entries, mapM_eq_ok_iff.mp hentries, (Except.ok.inj hbuild).symm⟩

/-- The patterns of a table are the keys of the alias map. -/
theorem patterns_perm {paths : OrderedMap (List String)} {outDir baseUrl : Path}
    {table : AliasTable} (hbuild : build paths outDir baseUrl = .ok table) :
    (table.entries.map Alias.pattern).Perm (paths.entries.map Prod.fst) := by
  obtain ⟨entries, hentries, rfl⟩ := exists_of_build hbuild
  have hpatterns : paths.entries.map Prod.fst = entries.map Alias.pattern := by
    rw [← List.forall₂_eq_eq_eq, List.forall₂_map_left_iff, List.forall₂_map_right_iff]
    exact hentries.imp fun _ _ hread => (Alias.isNamed_of_read hread).1.symm
  rw [hpatterns]
  exact (List.mergeSort_perm ..).map _

theorem ranked_build {paths : OrderedMap (List String)} {outDir baseUrl : Path}
    {table : AliasTable} (hbuild : build paths outDir baseUrl = .ok table) : table.Ranked where
  sorted := by
    obtain ⟨entries, -, rfl⟩ := exists_of_build hbuild
    exact List.pairwise_mergeSort Alias.precedes_trans Alias.precedes_total entries
  distinct := (patterns_perm hbuild).nodup_iff.mpr paths.distinct
  named entry hentry := by
    obtain ⟨source, -, hread⟩ := exists_of_mem_build hbuild hentry
    exact (Alias.isNamed_of_read hread).2

/-- A table that is built from the same alias map in another order has the same aliases. -/
theorem exists_build_of_perm {paths paths' : OrderedMap (List String)} {outDir baseUrl : Path}
    {table : AliasTable} (hbuild : build paths outDir baseUrl = .ok table)
    (hpaths : paths'.entries.Perm paths.entries) :
    ∃ table', build paths' outDir baseUrl = .ok table' ∧
      table'.entries.Perm table.entries := by
  obtain ⟨entries, hentries, rfl⟩ := exists_of_build hbuild
  obtain ⟨entries', hentries', hperm⟩ := List.perm_comp_forall₂ hpaths hentries
  refine ⟨⟨entries'.mergeSort Alias.precedes⟩, ?_, ?_⟩
  · have hread : (paths'.entries.mapM fun entry =>
        Alias.read (baseUrl.anchor outDir) entry.1 entry.2) = .ok entries' :=
      mapM_eq_ok_iff.mpr hentries'
    unfold build
    dsimp only
    rw [hread]
    rfl
  · exact (List.mergeSort_perm ..).trans (hperm.trans (List.mergeSort_perm ..).symm)

/-! ## What a table finds -/

theorem match?_eq_none_iff {table : AliasTable} {specifier : String} :
    table.match? specifier = none ↔ IsPathSpecifier specifier ∨
      ∀ entry ∈ table.entries, ∀ remainder, ¬ entry.Matches specifier remainder := by
  unfold match?
  rw [← isFileAddress_iff]
  by_cases haddress : isFileAddress specifier = true
  · simp [haddress]
  · rw [if_neg haddress, List.findSome?_eq_none_iff]
    simp only [haddress, Option.map_eq_none_iff, Alias.remainder?_eq_none_iff, Bool.false_eq_true,
      false_or]

/-- The alias that a table finds outranks all others that match. -/
theorem Ranked.outranks_of_match? {table : AliasTable} (hranked : table.Ranked)
    {specifier remainder : String} {entry : Alias}
    (hmatch : table.match? specifier = some (entry, remainder)) {other : Alias}
    (hother : other ∈ table.entries) (hne : other ≠ entry) {remainder' : String}
    (hmatches : other.Matches specifier remainder') : entry.Outranks other := by
  obtain ⟨hentry, hremainder⟩ := match?_eq_some hmatch
  unfold match? at hmatch
  split at hmatch
  · cases hmatch
  · obtain ⟨front, found, back, hentries, hfound, hfront⟩ := List.findSome?_eq_some_iff.mp hmatch
    obtain ⟨left, -, hpair⟩ := Option.map_eq_some_iff.mp hfound
    obtain rfl := (Prod.mk.inj hpair).1
    -- an alias that matches is not among those that have been tried before
    have hback : other ∈ back := by
      rw [hentries] at hother
      rcases List.mem_append.mp hother with hmem | hmem
      · have hnone := Option.map_eq_none_iff.mp (hfront other hmem)
        rw [Alias.remainder?_eq_some_iff.mpr hmatches] at hnone
        cases hnone
      · exact (List.mem_cons.mp hmem).resolve_left hne
    have hprecedes : found.precedes other = true := by
      have hsorted := hranked.sorted
      rw [hentries] at hsorted
      exact List.rel_of_pairwise_cons (List.pairwise_append.mp hsorted).2.1 hback
    have hpattern : found.pattern ≠ other.pattern := fun hpattern =>
      hne (List.inj_on_of_nodup_map hranked.distinct hother hentry hpattern.symm)
    exact Alias.outranks_of_precedes hprecedes hpattern (hranked.named _ hentry)
      (hranked.named _ hother) (Alias.remainder?_eq_some_iff.mp hremainder) hmatches

theorem Ranked.match?_eq_some_iff {table : AliasTable} (hranked : table.Ranked)
    {specifier remainder : String} {entry : Alias} :
    table.match? specifier = some (entry, remainder) ↔
      ¬ IsPathSpecifier specifier ∧ entry ∈ table.entries ∧ entry.Matches specifier remainder ∧
        ∀ other ∈ table.entries, other ≠ entry →
          (∃ remainder', other.Matches specifier remainder') → entry.Outranks other := by
  constructor
  · intro hmatch
    obtain ⟨hentry, hremainder⟩ := match?_eq_some hmatch
    refine ⟨fun hpath => ?_, hentry, Alias.remainder?_eq_some_iff.mp hremainder, ?_⟩
    · rw [match?_eq_none_iff.mpr (.inl hpath)] at hmatch
      cases hmatch
    · rintro other hother hne ⟨remainder', hmatches⟩
      exact hranked.outranks_of_match? hmatch hother hne hmatches
  · rintro ⟨hpath, hentry, hmatches, hothers⟩
    have hsome : table.match? specifier ≠ none := by
      rw [Ne, match?_eq_none_iff]
      rintro (hpath' | hnone)
      · exact hpath hpath'
      · exact hnone entry hentry remainder hmatches
    obtain ⟨⟨found, remainder'⟩, hfound⟩ := Option.ne_none_iff_exists'.mp hsome
    obtain ⟨hmem, hremainder⟩ := match?_eq_some hfound
    -- two aliases that match would outrank each other
    have hsame : found = entry := by
      by_contra hne
      have houtranks : found.Outranks entry :=
        hranked.outranks_of_match? hfound hentry (Ne.symm hne) hmatches
      exact houtranks.asymm
        (hothers found hmem hne ⟨_, Alias.remainder?_eq_some_iff.mp hremainder⟩)
    subst hsame
    rw [Alias.remainder?_eq_some_iff.mpr hmatches] at hremainder
    rw [hfound, Option.some.inj hremainder]

/-- What sorted tables find is settled by which aliases they have. -/
theorem Ranked.match?_eq_of_perm {table table' : AliasTable} (hranked : table.Ranked)
    (hranked' : table'.Ranked) (hperm : table'.entries.Perm table.entries) (specifier : String) :
    table'.match? specifier = table.match? specifier := by
  refine Option.ext fun ⟨entry, remainder⟩ => ?_
  rw [hranked.match?_eq_some_iff, hranked'.match?_eq_some_iff]
  simp only [hperm.mem_iff]

/-- **Precedence of aliases.**  A table that is built has one alias for each key of the alias map,
made of the key without its wildcard.  It finds nothing for a specifier just when the specifier is a
path or no alias matches it, and it finds an alias just when that one matches and outranks all
others that do.  Declared in any other order the alias map makes a table as well, which finds the
same alias and the same remainder for every specifier. -/
theorem match?_precedence (paths : OrderedMap (List String)) (outDir baseUrl : Path)
    (table : AliasTable) (hbuild : build paths outDir baseUrl = .ok table) :
    (table.entries.map Alias.pattern).Perm (paths.entries.map Prod.fst) ∧
    (∀ entry ∈ table.entries, entry.IsNamed) ∧
    (∀ specifier, table.match? specifier = none ↔ IsPathSpecifier specifier ∨
      ∀ entry ∈ table.entries, ∀ remainder, ¬ entry.Matches specifier remainder) ∧
    (∀ specifier entry remainder, table.match? specifier = some (entry, remainder) ↔
      ¬ IsPathSpecifier specifier ∧ entry ∈ table.entries ∧ entry.Matches specifier remainder ∧
        ∀ other ∈ table.entries, other ≠ entry →
          (∃ remainder', other.Matches specifier remainder') → entry.Outranks other) ∧
    ∀ paths' : OrderedMap (List String), paths'.entries.Perm paths.entries →
      ∃ table', build paths' outDir baseUrl = .ok table' ∧
        ∀ specifier, table'.match? specifier = table.match? specifier := by
  have hranked : table.Ranked := ranked_build hbuild
  refine ⟨patterns_perm hbuild, hranked.named, fun _ => match?_eq_none_iff,
    fun _ _ _ => hranked.match?_eq_some_iff, fun paths' hpaths => ?_⟩
  obtain ⟨table', hbuild', hperm⟩ := exists_build_of_perm hbuild hpaths
  exact ⟨table', hbuild', hranked.match?_eq_of_perm (ranked_build hbuild') hperm⟩

/-- An alias map with keys that overlap. -/
def overlappingPaths : OrderedMap (List String) where
  entries := [("@app/db", ["db/index"]), ("@app/db*", ["databases/*"]), ("@app/*", ["app/*"]),
    ("*", ["*"])]
  distinct := by decide

/-- The table that it makes. -/
def overlapping : AliasTable where
  entries := [⟨"@app/db", "@app/db", .exact, [⟨⟨"/p/dist/db/index"⟩, ""⟩]⟩,
    ⟨"@app/db*", "@app/db", .leading, [⟨⟨"/p/dist/databases/"⟩, ""⟩]⟩,
    ⟨"@app/*", "@app/", .leading, [⟨⟨"/p/dist/app/"⟩, ""⟩]⟩,
    ⟨"*", "", .leading, [⟨⟨"/p/dist/"⟩, ""⟩]⟩]

theorem build_overlapping : build overlappingPaths ⟨"/p/dist"⟩ ⟨"."⟩ = .ok overlapping := by
  have hanchor : (⟨"."⟩ : Path).anchor ⟨"/p/dist"⟩ = ⟨"/p/dist"⟩ := by decide +kernel
  have hentries : (overlappingPaths.entries.mapM fun entry =>
      Alias.read ⟨"/p/dist"⟩ entry.1 entry.2) = .ok overlapping.entries := rfl
  rw [build, hanchor, hentries]
  exact congrArg (fun entries => Except.ok (mk entries))
    (List.mergeSort_of_pairwise (by decide +kernel))

/-- The exact alias wins over three others that match as well, also when it is declared last. -/
theorem match?_precedence_overlapping :
    ∃ entry, entry.pattern = "@app/db" ∧ overlapping.match? "@app/db" = some (entry, "") ∧
      ∃ table', build ⟨overlappingPaths.entries.reverse, by decide⟩ ⟨"/p/dist"⟩ ⟨"."⟩ =
        .ok table' ∧ table'.match? "@app/db" = some (entry, "") := by
  obtain ⟨-, -, -, hsome, horder⟩ := match?_precedence _ _ _ _ build_overlapping
  have hmatch : overlapping.match? "@app/db" =
      some (⟨"@app/db", "@app/db", .exact, [⟨⟨"/p/dist/db/index"⟩, ""⟩]⟩, "") := by
    refine (hsome _ _ _).mpr ⟨by decide, List.mem_cons_self .., ⟨rfl, rfl⟩, ?_⟩
    have hothers : ∀ other ∈ overlapping.entries.tail,
        Alias.Outranks ⟨"@app/db", "@app/db", .exact, [⟨⟨"/p/dist/db/index"⟩, ""⟩]⟩ other := by
      decide
    intro other hother hne _
    exact hothers other ((List.mem_cons.mp hother).resolve_left hne)
  obtain ⟨table', hbuild', hsame⟩ :=
    horder ⟨overlappingPaths.entries.reverse, by decide⟩ (List.reverse_perm _)
  exact ⟨_, rfl, hmatch, table', hbuild', (hsame _).trans hmatch⟩

end AliasTable
end Dealias
