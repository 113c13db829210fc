import Dealias.Alias.Table
import Dealias.Proofs.Outcome
import Dealias.Proofs.Path.Quotes

/-!
# What alias tables are made of

A table that is built holds what has been read from the alias map, and nothing else
(`AliasTable.exists_of_mem_build`).  So a table whose targets are written without quotes names only
candidates without quotes for specifiers without quotes.  A specifier that addresses a file directly
is not matched at all.
-/

namespace Dealias

/-- The targets of an alias are read from its target patterns, one from each. -/
theorem Alias.forall₂_targets {anchor : Path} {pattern : String} {texts : List String}
    {entry : Alias} (hread : Alias.read anchor pattern texts = .ok entry) :
    List.Forall₂ (fun text target => AliasTarget.read anchor text = .ok target) texts
      entry.targets := by
  unfold Alias.read at hread
  obtain ⟨⟨literal, kind⟩, -, hread⟩ := bind_eq_ok_iff.mp hread
  dsimp only at hread
  split at hread
  · cases hread
  · obtain ⟨targets, htargets, hread⟩ := bind_eq_ok_iff.mp hread
    obtain rfl := Except.ok.inj hread
    exact mapM_eq_ok_iff.mp htargets

theorem Alias.exists_of_mem_targets {anchor : Path} {pattern : String} {targets : List String}
    {entry : Alias} (hread : Alias.read anchor pattern targets = .ok entry) {target : AliasTarget}
    (htarget : target ∈ entry.targets) :
    ∃ text ∈ targets, AliasTarget.read anchor text = .ok target :=
  exists_of_mem_mapM (mapM_eq_ok_iff.mpr (forall₂_targets hread)) htarget

/-- Every alias of a table is read from an entry of the alias map. -/
theorem AliasTable.exists_of_mem_build {paths : OrderedMap (List String)} {outDir baseUrl : Path}
    {table : AliasTable} (hbuild : build paths outDir baseUrl = .ok table) {entry : Alias}
    (hentry : entry ∈ table.entries) :
    ∃ source ∈ paths.entries, Alias.read (baseUrl.anchor outDir) source.1 source.2 = .ok entry := by
  obtain ⟨entries, hentries, hbuild⟩ := bind_eq_ok_iff.mp hbuild
  obtain rfl := Except.ok.inj hbuild
  exact exists_of_mem_mapM hentries ((List.mergeSort_perm ..).mem_iff.mp hentry)

/-- The table of a map with one entry. -/
theorem AliasTable.build_singleton {pattern : String} {targets : List String}
    {outDir baseUrl : Path} {entry : Alias}
    (hread : Alias.read (baseUrl.anchor outDir) pattern targets = .ok entry) :
    build (.ofList [(pattern, targets)]) outDir baseUrl = .ok ⟨[entry]⟩ := by
  have hentries : ((OrderedMap.ofList [(pattern, targets)]).entries.mapM fun source =>
      Alias.read (baseUrl.anchor outDir) source.1 source.2) = .ok [entry] :=
    mapM_eq_ok_iff.mpr (.cons hread .nil)
  unfold build
  dsimp only
  rw [hentries]
  exact congrArg (fun entries => Except.ok (AliasTable.mk entries)) (List.mergeSort_singleton _)

/-! ## Tables without quotes -/

theorem mem_of_mem_splitAtWildcard {text : List Char} {character : Char}
    (hcharacter : character ∈ (splitAtWildcard text).1 ∨ character ∈ (splitAtWildcard text).2) :
    character ∈ text := by
  induction text with
  | nil => simp [splitAtWildcard] at hcharacter
  | cons first rest ih =>
      unfold splitAtWildcard at hcharacter
      split at hcharacter
      · rcases hcharacter with hfront | hback
        · cases hfront
        · exact List.mem_cons_of_mem _ hback
      · rcases hcharacter with hfront | hback
        · rcases List.mem_cons.mp hfront with rfl | hfront
          · exact List.mem_cons_self ..
          · exact List.mem_cons_of_mem _ (ih (.inl hfront))
        · exact List.mem_cons_of_mem _ (ih (.inr hback))

/-- Whether no target of a table is written with a quote. -/
def AliasTable.IsQuoteFree (table : AliasTable) : Prop :=
  ∀ entry ∈ table.entries, ∀ target ∈ entry.targets,
    target.base.IsQuoteFree ∧ Dealias.IsQuoteFree target.suffix.toList

theorem AliasTable.isQuoteFree_build {paths : OrderedMap (List String)} {outDir baseUrl : Path}
    {table : AliasTable} (hbuild : build paths outDir baseUrl = .ok table)
    (houtDir : outDir.IsQuoteFree) (hbaseUrl : baseUrl.IsQuoteFree)
    (hpaths : ∀ entry ∈ paths.entries, ∀ target ∈ entry.2, Dealias.IsQuoteFree target.toList) :
    table.IsQuoteFree := by
  intro entry hentry target htarget
  obtain ⟨source, hsource, hread⟩ := exists_of_mem_build hbuild hentry
  obtain ⟨text, htext, hread⟩ := Alias.exists_of_mem_targets hread htarget
  have hquoteFree := hpaths source hsource text htext
  unfold AliasTarget.read at hread
  dsimp only at hread
  split at hread
  · obtain rfl := Except.ok.inj hread
    refine ⟨(hbaseUrl.anchor houtDir).join fun character hmem => ?_, fun character hmem => ?_⟩
    · rw [String.toList_ofList] at hmem
      exact hquoteFree character (mem_of_mem_splitAtWildcard (.inl hmem))
    · rw [String.toList_ofList] at hmem
      exact hquoteFree character (mem_of_mem_splitAtWildcard (.inr hmem))
  · cases hread

/-- The text under a wildcard is part of the specifier. -/
theorem Alias.isQuoteFree_remainder? {entry : Alias} {specifier remainder : String}
    (hspecifier : IsQuoteFree specifier.toList)
    (hremainder : entry.remainder? specifier = some remainder) : IsQuoteFree remainder.toList := by
  unfold Alias.remainder? at hremainder
  split at hremainder
  · obtain ⟨rest, hrest, rfl⟩ := Option.map_eq_some_iff.mp hremainder
    rw [List.isPrefixOf?_eq_some_iff_append_eq] at hrest
    rw [String.toList_ofList]
    exact (isQuoteFree_append.mp (hrest ▸ hspecifier)).2
  · split at hremainder
    · obtain rfl := Option.some.inj hremainder
      simp [IsQuoteFree]
    · cases hremainder

theorem AliasTable.match?_eq_some {table : AliasTable} {specifier remainder : String}
    {entry : Alias} (hmatch : table.match? specifier = some (entry, remainder)) :
    entry ∈ table.entries ∧ entry.remainder? specifier = some remainder := by
  unfold match? at hmatch
  split at hmatch
  · cases hmatch
  · obtain ⟨found, hfound, hmatch⟩ := List.exists_of_findSome?_eq_some hmatch
    obtain ⟨found', hremainder, hpair⟩ := Option.map_eq_some_iff.mp hmatch
    obtain ⟨rfl, rfl⟩ := Prod.mk.inj hpair
    exact ⟨hfound, hremainder⟩

/-- The candidates for a specifier without quotes. -/
theorem AliasTable.IsQuoteFree.candidate {table : AliasTable} (htable : table.IsQuoteFree)
    {specifier remainder : String} (hspecifier : Dealias.IsQuoteFree specifier.toList)
    {entry : Alias} (hmatch : table.match? specifier = some (entry, remainder))
    {target : AliasTarget} (htarget : target ∈ entry.targets) :
    (target.candidate remainder).IsQuoteFree := by
  obtain ⟨hentry, hremainder⟩ := match?_eq_some hmatch
  obtain ⟨hbase, hsuffix⟩ := htable entry hentry target htarget
  refine Path.IsQuoteFree.normalize ?_
  rw [Path.IsQuoteFree, String.toList_append, String.toList_append]
  exact isQuoteFree_append.mpr
    ⟨isQuoteFree_append.mpr ⟨hbase, entry.isQuoteFree_remainder? hspecifier hremainder⟩, hsuffix⟩

/-! ## File addresses -/

theorem AliasTable.match?_of_isFileAddress {specifier : String}
    (haddress : isFileAddress specifier = true) (table : AliasTable) :
    table.match? specifier = none :=
  if_pos haddress

theorem AliasTable.isFileAddress_ensureDotted (specifier : String) :
    isFileAddress (ensureDotted specifier) = true := by
  unfold ensureDotted
  split
  · rename_i htext
    simp only [isFileAddress, htext]
  · rename_i htext
    simp only [isFileAddress, htext]
  · have htext : ("./" ++ specifier).toList = '.' :: '/' :: specifier.toList := by
      rw [String.toList_append]
      rfl
    simp only [isFileAddress, htext]

end Dealias
