import Dealias.Proofs.Addresses
import Dealias.Proofs.Discovery.Links
import Dealias.Proofs.Path.Way

/-!
# Addresses in projects that are not absolute

A project directory may be relative, and then so are the output directory, the discovered files and
the candidates, but for those of absolute targets.  `RunOptions.address_leads_iff` says for any
project when an address leads from the importing file to its candidate.  There is no way from a
relative directory to an absolute candidate, but an address is made all the same; and when the
output directory is the working directory itself, the files in it are found by paths with a `.` in
front, and an address leads astray unless the candidate is entered by the same name as the importing
file.  `RunOptions.address_strays_sample` is such a case.  From any other output directory addresses
lead to the candidates of their kind, as long as no directory is named `..` below it.
-/

namespace Dealias

/-! ## The directories of discovered files -/

theorem location_importingDirectory {file directory : Path} {component : Component}
    (hfile : file.location = directory.location ++ [component])
    (hdirectory : directory.location ≠ []) :
    (importingDirectory file).location = directory.location := by
  have hstep : component.IsStep := Path.Names.isStep ⟨file, hfile⟩ hdirectory
  unfold importingDirectory Path.parent?
  rw [hfile, List.getLast?_concat, List.dropLast_concat]
  split
  · rename_i hnone
    cases hnone
  · rename_i hroot
    exact absurd (Option.some.inj hroot) hstep.ne_root
  · exact Path.location_ofLocation ⟨directory, rfl⟩

/-- Whether a walk has stayed below the root: so do the directories that wait, and every file that
it found is an entry of such a directory. -/
structure Walk.Nested (root : Path) (walk : Walk) : Prop where
  pending : ∀ directory ∈ walk.pending, root.location <+: directory.location
  found : ∀ file ∈ walk.found, ∃ directory : Path, ∃ component,
    root.location <+: directory.location ∧ file.location = directory.location ++ [component]

theorem Walk.Nested.visitIn {tree : MemoryTree} {root directory : Path} {walk : Walk}
    (htargets : ∀ link ∈ tree.links, link.2 ≠ []) (hroot : root.location ≠ [])
    {pending found : List Path} (hnested : Nested root ⟨directory :: pending, found⟩)
    (hvisit : visitIn tree root directory ⟨pending, found⟩ = .ok walk) : Nested root walk := by
  obtain ⟨hbelow, hpending⟩ := List.forall_mem_cons.mp hnested.pending
  rcases visitIn_eq_ok hvisit with ⟨names, hlist, rfl⟩ | ⟨-, -, rfl⟩
  · obtain ⟨-, place, hresolve, -, rfl⟩ := MemoryTree.exists_of_list_ok hlist
    have hdirectory : directory.location ≠ [] := fun hempty =>
      hroot (List.prefix_nil.mp (hempty ▸ hbelow))
    have hplace : place ≠ [] := MemoryTree.ne_nil_of_follow htargets hdirectory hresolve
    have hentries : ∀ path ∈ (tree.names place).map fun name => directory.join ⟨name⟩,
        ∃ component, path.location = directory.location ++ [component] := by
      intro path hpath
      obtain ⟨name, hname, rfl⟩ := List.mem_map.mp hpath
      obtain ⟨component, -, hcomponent⟩ :=
        MemoryTree.exists_of_mem_names (fun hempty => absurd hempty hplace) hname
      exact ⟨component, hcomponent⟩
    rw [addEntriesIn_eq]
    constructor
    · intro path hpath
      rcases List.mem_append.mp hpath with hnew | hold
      · obtain ⟨component, hcomponent⟩ :=
          hentries path (List.mem_of_mem_filter (List.mem_reverse.mp hnew))
        rw [hcomponent]
        exact hbelow.trans (List.prefix_append ..)
      · exact hpending path hold
    · intro file hfile
      rcases List.mem_append.mp hfile with hnew | hold
      · obtain ⟨component, hcomponent⟩ :=
          hentries file (List.mem_of_mem_filter (List.mem_reverse.mp hnew))
        exact ⟨directory, component, hbelow, hcomponent⟩
      · exact hnested.found file hold
  · exact ⟨hpending, hnested.found⟩

/-- The imports of a discovered file start from a directory at or below the root of the discovery,
unless a link leads to the empty path. -/
theorem prefix_importingDirectory {tree : MemoryTree} {root : Path} {budget : Nat}
    {files : List Path} (htargets : ∀ link ∈ tree.links, link.2 ≠ []) (hroot : root.location ≠ [])
    (hfiles : discoverIn tree budget root = .ok files) {file : Path} (hfile : file ∈ files) :
    root.location <+: (importingDirectory file).location := by
  obtain ⟨walk, hexplore, rfl⟩ := exists_of_discoverIn hfiles
  have hnested : walk.Nested root := Walk.exploreIn_induction
    (fun _ _ _ _ hnested hvisit => hnested.visitIn htargets hroot hvisit)
    ⟨by simp [Walk.start], by simp [Walk.start]⟩ hexplore
  have hfound := List.mem_reverse.mp ((List.mergeSort_perm _ _).mem_iff.mp hfile)
  obtain ⟨directory, component, hbelow, hlocation⟩ := hnested.found file hfound
  have hdirectory : directory.location ≠ [] := fun hempty =>
    hroot (List.prefix_nil.mp (hempty ▸ hbelow))
  rwa [location_importingDirectory hlocation hdirectory]

/-! ## Candidates of a relative table -/

/-- Seen from a relative base, a relative path climbs as far as the base does. -/
theorem Path.prefix_anchor {path base : Path} (hrelative : (path.anchor base).isAbsolute = false)
    {climbs : Nat} (hbase : List.replicate climbs .parent <+: base.location.normalize) :
    List.replicate climbs .parent <+: (path.anchor base).location.normalize := by
  cases hpath : path.isAbsolute with
  | true =>
      have habsolute : (path.anchor base).isAbsolute = true := by
        rw [anchor, if_pos hpath]
        exact isAbsolute_normalize hpath
      rw [hrelative] at habsolute
      cases habsolute
  | false =>
      have hroot : .root ∉ path.location := isAbsolute_eq_false_iff.mp hpath
      rw [anchor, hpath, if_neg (by simp),
        normalize_eq_normalize_iff.mp (normalize_normalize (base.join path)), location_join,
        Location.normalize, Location.foldl_absorb_join _ hroot, ← Location.normalize]
      exact Location.prefix_normalize_append hbase _

section Candidates

variable {paths : OrderedMap (List String)} {outDir baseUrl : Path} {table : AliasTable}
  {entry : Alias} {target : AliasTarget}

/-- A relative candidate climbs as far as the output directory does. -/
theorem AliasTable.prefix_candidate (hbuild : build paths outDir baseUrl = .ok table)
    (hentry : entry ∈ table.entries) (htarget : target ∈ entry.targets) {climbs : Nat}
    (houtDir : List.replicate climbs .parent <+: outDir.location.normalize) {remainder : String}
    (hrelative : (target.candidate remainder).isAbsolute = false) :
    List.replicate climbs .parent <+: (target.candidate remainder).location := by
  have hbase : target.base.isAbsolute = false :=
    Bool.eq_false_iff.mpr fun hbase => by simp [target.isAbsolute_candidate hbase] at hrelative
  obtain ⟨source, -, hread⟩ := exists_of_mem_build hbuild hentry
  obtain ⟨text, -, hread⟩ := Alias.exists_of_mem_targets hread htarget
  unfold AliasTarget.read at hread
  dsimp only at hread
  split at hread
  · obtain rfl := Except.ok.inj hread
    have hanchor : (baseUrl.anchor outDir).isAbsolute = false :=
      Bool.eq_false_iff.mpr fun habsolute => by
        simp [Path.isAbsolute_join habsolute] at hbase
    have hfront : (Path.mk (String.ofList (splitAtWildcard text.toList).1)).isAbsolute = false :=
      Bool.eq_false_iff.mpr fun habsolute => by
        simp [Path.join, habsolute] at hbase
    refine Path.prefix_location_normalize ?_
    rw [String.append_assoc,
      Path.location_join_append (baseUrl.location_anchor_ne_nil outDir) hfront]
    exact Location.prefix_normalize_append (Path.prefix_anchor hanchor houtDir) _
  · cases hread

/-- The way from a directory below the output directory to a candidate of its kind is plain, unless
the output directory is the working directory or a `..` stands below it. -/
theorem AliasTable.hasPlainWay_candidate (hbuild : build paths outDir baseUrl = .ok table)
    (hentry : entry ∈ table.entries) (htarget : target ∈ entry.targets)
    (hnormal : outDir.normalize = outDir) (hdot : outDir.location ≠ [.current])
    {remainder : String} (hkind : (target.candidate remainder).isAbsolute = outDir.isAbsolute)
    {below : Location} (hparent : .parent ∉ below) (hcurrent : .current ∉ below) :
    Location.HasPlainWay (outDir.location ++ below) (target.candidate remainder).location := by
  obtain ⟨climbs, inside, hlocation, hinside, hnames, habsolute⟩ :=
    Path.exists_climbs_of_normal hnormal hdot
  have hclimbs : List.replicate climbs .parent <+: (target.candidate remainder).location := by
    cases houtDir : outDir.isAbsolute with
    | true =>
        rw [habsolute houtDir]
        exact List.nil_prefix
    | false =>
        refine prefix_candidate hbuild hentry htarget ?_ (hkind.trans houtDir)
        rw [Path.normalize_location_of_normal hnormal hdot, hlocation]
        exact List.prefix_append ..
  rw [hlocation, List.append_assoc]
  exact Location.hasPlainWay_of_prefix (by simp [hinside, hparent]) (by simp [hnames, hcurrent])
    hclimbs

end Candidates

/-! ## Where an address leads -/

/-- **Addresses in any project.**  Whatever true answers the cache holds, the address that a
discovered file's specifier is resolved to leads to the chosen candidate in these cases and no
others: the directory of the file and the candidate are both absolute or both relative, and the way
from the one to the other is plain.  With an absolute output directory both are absolute.  As long
as no link leads to the empty path, the directory of the file is the output directory or lies below
it; then the address leads to every candidate of the kind of the output directory, unless that is
the working directory or a `..` stands below it. -/
theorem RunOptions.address_leads_iff {options : RunOptions} {config : RunConfig}
    {tree : MemoryTree} {world : World MemoryTree} {budget : Nat} {files : List Path} {file : Path}
    {specifier address : String} (hconfigure : options.configure = .ok config)
    (hagrees : world.Agrees tree)
    (hdiscover : ((discover budget config.outDir).run world).1 = .ok files) (hfile : file ∈ files)
    (hresolve : ((config.aliases.resolve specifier file).run world).1 = .resolved address) :
    ∃ candidate, config.aliases.chosen? tree specifier file = some candidate ∧
      (((importingDirectory file).join ⟨address⟩).normalize = candidate ↔
        candidate.isAbsolute = (importingDirectory file).isAbsolute ∧
          Location.HasPlainWay (importingDirectory file).location candidate.location) ∧
      (config.outDir.isAbsolute = true →
        (importingDirectory file).isAbsolute = true ∧ candidate.isAbsolute = true) ∧
      ((∀ link ∈ tree.links, link.2 ≠ []) →
        config.outDir.location <+: (importingDirectory file).location ∧
          (candidate.isAbsolute = config.outDir.isAbsolute → config.outDir.location ≠ [.current] →
            .parent ∉ (importingDirectory file).location.drop config.outDir.location.length →
              ((importingDirectory file).join ⟨address⟩).normalize = candidate)) := by
  obtain ⟨houtDir, hbuild, -⟩ := RunOptions.configure_ok hconfigure
  have hresolved : config.aliases.resolutionIn tree specifier file = .resolved address :=
    ((config.aliases.finds_resolve specifier file).run hagrees).2.1.symm.trans hresolve
  obtain ⟨entry, remainder, located, target, htarget, hmatch, hchosen, -, haddress⟩ :=
    AliasTable.chosen?_of_resolved hresolved
  have hentry : entry ∈ config.aliases.entries := (AliasTable.match?_eq_some hmatch).1
  have hleads := relativeSpecifier?_leads_iff (target.isNormal_candidate remainder).normalize_eq
    haddress
  refine ⟨target.candidate remainder, hchosen, hleads, fun habsolute => ⟨?_, ?_⟩,
    fun htargets => ?_⟩
  · exact isAbsolute_importingDirectory
      ((within_discover budget config.outDir).run world habsolute files hdiscover file hfile).1
  · exact target.isAbsolute_candidate (AliasTable.isAbsolute_base hbuild habsolute hentry htarget)
      remainder
  · have hroot : config.outDir.location ≠ [] := houtDir ▸ Path.location_anchor_ne_nil _ _
    have hfiles : discoverIn tree budget config.outDir = .ok files :=
      ((finds_discover budget config.outDir).run hagrees).2.1.symm.trans hdiscover
    have hbelow := prefix_importingDirectory htargets hroot hfiles hfile
    refine ⟨hbelow, fun hkind hdot hparent => hleads.mpr ?_⟩
    rw [← Path.isAbsolute_of_prefix hroot hbelow]
    obtain ⟨below, hdirectory⟩ := hbelow
    have hsteps : ∀ step ∈ below, step.IsStep :=
      Path.Names.forall_isStep ⟨importingDirectory file, hdirectory.symm⟩ hroot
    rw [← hdirectory, List.drop_left] at hparent
    rw [← hdirectory]
    exact ⟨hkind, AliasTable.hasPlainWay_candidate hbuild hentry htarget
      (houtDir ▸ Path.isNormal_anchor _ _).normalize_eq hdot hkind hparent
      fun hcurrent => (hsteps _ hcurrent).ne_current rfl⟩

/-- A module found in a directory of its own, one found in `./app`, and one that is not found but
stands where the targets of the alias `@app/*` are. -/
def MemoryTree.dottedSample : MemoryTree :=
  (((MemoryTree.empty ⟨"/"⟩).putFile [.current, .name "sub", .name "a.js"]
    "import '@app/x'".toUTF8).putFile [.current, .name "app", .name "b.js"]
      "import '@app/x'".toUTF8).putFile [.name "app", .name "x.js"] "".toUTF8

/-- A run in the working directory. -/
def RunOptions.dottedSample : RunOptions where
  projectDir := ⟨"."⟩
  outDir := ⟨"."⟩
  baseUrl := none
  rootDir := none
  paths := .ofList [("@app/*", ["app/*"])]
  concurrency := 1
  dryRun := false

/-- What that run works with. -/
def RunConfig.dottedSample : RunConfig where
  outDir := ⟨"."⟩
  baseUrl := ⟨"."⟩
  rootDir := none
  aliases := ⟨[⟨"@app/*", "@app/", .leading, [⟨⟨"./app/"⟩, ""⟩]⟩]⟩
  concurrency := 1
  dryRun := false

theorem RunOptions.configure_dottedSample :
    RunOptions.dottedSample.configure = .ok RunConfig.dottedSample := by
  have hanchor : (⟨"."⟩ : Path).anchor ⟨"."⟩ = ⟨"."⟩ := by decide +kernel
  have hbuild : AliasTable.build RunOptions.dottedSample.paths ⟨"."⟩ ⟨"."⟩ =
      .ok RunConfig.dottedSample.aliases :=
    AliasTable.build_singleton (by rw [hanchor]; rfl)
  unfold RunOptions.configure
  change (AliasTable.build _ ((⟨"."⟩ : Path).anchor ⟨"."⟩) ⟨"."⟩ >>= _) = _
  rw [hanchor, hbuild]
  rfl

theorem MemoryTree.discover_dottedSample :
    ∃ files, ((discover (dottedSample.directoryBound ⟨"."⟩) ⟨"."⟩).run
        (World.start dottedSample)).1 = .ok files ∧
      ⟨"./sub/a.js"⟩ ∈ files ∧ ⟨"./app/b.js"⟩ ∈ files := by
  have hexplore : ((Walk.explore ⟨"."⟩ (dottedSample.directoryBound ⟨"."⟩) (.start ⟨"."⟩)).run
      (World.start dottedSample)).1.toOption = some ⟨[], [⟨"./app/b.js"⟩, ⟨"./sub/a.js"⟩]⟩ := by
    decide +kernel
  refine ⟨_, discover_of_explore hexplore, ?_⟩
  simp [Walk.files]

/-- The name that is entered first is that of the directory. -/
theorem RunOptions.address_leads_sample :
    ((RunConfig.dottedSample.aliases.resolve "@app/x" ⟨"./app/b.js"⟩).run
        (World.start MemoryTree.dottedSample)).1 = .resolved "./app/../x" ∧
      RunConfig.dottedSample.aliases.chosen? MemoryTree.dottedSample "@app/x" ⟨"./app/b.js"⟩ =
        some ⟨"app/x"⟩ ∧
      ((importingDirectory ⟨"./app/b.js"⟩).join ⟨"./app/../x"⟩).normalize = ⟨"app/x"⟩ := by
  have hresolve : ((RunConfig.dottedSample.aliases.resolve "@app/x" ⟨"./app/b.js"⟩).run
      (World.start MemoryTree.dottedSample)).1 = .resolved "./app/../x" := by decide +kernel
  have hchosen : RunConfig.dottedSample.aliases.chosen? MemoryTree.dottedSample "@app/x"
      ⟨"./app/b.js"⟩ = some ⟨"app/x"⟩ := by decide +kernel
  obtain ⟨files, hdiscover, -, hfile⟩ := MemoryTree.discover_dottedSample
  obtain ⟨candidate, hchosen', hleads, -⟩ :=
    RunOptions.address_leads_iff RunOptions.configure_dottedSample
      (World.agrees_start (.refl MemoryTree.dottedSample) (List.suffix_refl _)) hdiscover hfile
      hresolve
  obtain rfl := Option.some.inj (hchosen.symm.trans hchosen')
  refine ⟨hresolve, hchosen, hleads.mpr ⟨by decide +kernel, ?_⟩⟩
  have hdirectory : (importingDirectory ⟨"./app/b.js"⟩).location = [.current, .name "app"] := by
    decide +kernel
  have hcandidate : (⟨"app/x"⟩ : Path).location = [.name "app", .name "x"] := by decide +kernel
  rw [hdirectory, hcandidate]
  exact ⟨.inl (by decide), by simp⟩

/-- In the working directory an address enters the directory of the candidate and leaves it again,
and so leads to a module beside the importing one. -/
theorem RunOptions.address_strays_sample :
    RunOptions.dottedSample.configure = .ok RunConfig.dottedSample ∧
      (∃ files, ((discover (MemoryTree.dottedSample.directoryBound ⟨"."⟩)
        RunConfig.dottedSample.outDir).run (World.start MemoryTree.dottedSample)).1 = .ok files ∧
          ⟨"./sub/a.js"⟩ ∈ files) ∧
      ((RunConfig.dottedSample.aliases.resolve "@app/x" ⟨"./sub/a.js"⟩).run
        (World.start MemoryTree.dottedSample)).1 = .resolved "./app/../x" ∧
      RunConfig.dottedSample.aliases.chosen? MemoryTree.dottedSample "@app/x" ⟨"./sub/a.js"⟩ =
        some ⟨"app/x"⟩ ∧
      ((importingDirectory ⟨"./sub/a.js"⟩).join ⟨"./app/../x"⟩).normalize = ⟨"sub/x"⟩ := by
  obtain ⟨files, hdiscover, hfile, -⟩ := MemoryTree.discover_dottedSample
  exact ⟨RunOptions.configure_dottedSample, ⟨files, hdiscover, hfile⟩, by decide +kernel,
    by decide +kernel, by decide +kernel⟩

end Dealias
