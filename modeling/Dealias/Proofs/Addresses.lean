import Dealias.Proofs.Alias.Table
import Dealias.Proofs.Path.Relative
import Dealias.Proofs.Run

/-!
# Where addresses lead

A resolved specifier addresses the chosen candidate, without the extension of the file that stands
behind it, and whoever follows the address puts the extension behind it.  When the project directory
is absolute, so are the discovered files and all candidates, and `RunOptions.address_reaches_iff`
says when the address with the extension leads to the file: not when the candidate is the directory
of the importing file, or an ancestor of it, because the address is then made of climbs alone and
the extension has no name to belong to.  `RunOptions.address_misses_sample` is such a case.
-/

namespace Dealias

/-! ## Absolute paths -/

theorem Path.isAbsolute_normalize {path : Path} (habsolute : path.isAbsolute = true) :
    path.normalize.isAbsolute = true := by
  obtain ⟨names, hnormal, hnames⟩ := exists_names_of_isAbsolute habsolute
  rw [hnormal, isAbsolute_iff]
  exact ⟨names, location_ofLocation_root fun name hname => (hnames name hname).1⟩

theorem Path.isAbsolute_anchor {base : Path} (hbase : base.isAbsolute = true) (path : Path) :
    (path.anchor base).isAbsolute = true := by
  unfold anchor
  split
  · exact isAbsolute_normalize ‹_›
  · exact isAbsolute_normalize (isAbsolute_join hbase path)

/-- The targets of a table are anchored at the output directory. -/
theorem AliasTable.isAbsolute_base {paths : OrderedMap (List String)} {outDir baseUrl : Path}
    {table : AliasTable} (hbuild : build paths outDir baseUrl = .ok table)
    (houtDir : outDir.isAbsolute = true) {entry : Alias} (hentry : entry ∈ table.entries)
    {target : AliasTarget} (htarget : target ∈ entry.targets) :
    target.base.isAbsolute = true := by
  obtain ⟨source, -, hread⟩ := exists_of_mem_build hbuild hentry
  obtain ⟨text, -, hread⟩ := Alias.exists_of_mem_targets hread htarget
  unfold AliasTarget.read at hread
  dsimp only at hread
  split at hread
  · obtain rfl := Except.ok.inj hread
    exact Path.isAbsolute_join (Path.isAbsolute_anchor houtDir baseUrl) _
  · cases hread

theorem AliasTarget.isAbsolute_text {target : AliasTarget} (hbase : target.base.isAbsolute = true)
    (remainder : String) :
    (Path.mk (target.base.text ++ remainder ++ target.suffix)).isAbsolute = true := by
  unfold Path.isAbsolute at hbase ⊢
  have hhead : target.base.text.toList ≠ [] := by
    intro hempty
    simp [hempty] at hbase
  rwa [String.append_assoc, String.toList_append, List.head?_append_of_ne_nil _ hhead]

theorem AliasTarget.isAbsolute_candidate {target : AliasTarget}
    (hbase : target.base.isAbsolute = true) (remainder : String) :
    (target.candidate remainder).isAbsolute = true :=
  Path.isAbsolute_normalize (target.isAbsolute_text hbase remainder)

/-- A candidate of an anchored target is spelled with the root and names. -/
theorem AliasTarget.exists_names_candidate {target : AliasTarget}
    (hbase : target.base.isAbsolute = true) (remainder : String) :
    ∃ names, target.candidate remainder = Path.ofLocation (.root :: names) ∧
      ∀ name ∈ names, name.IsName :=
  Path.exists_names_of_isAbsolute (target.isAbsolute_text hbase remainder)

/-- The imports of an absolute file start from an absolute directory. -/
theorem isAbsolute_importingDirectory {file : Path} (hfile : file.isAbsolute = true) :
    (importingDirectory file).isAbsolute = true := by
  obtain ⟨steps, hlocation, hsteps⟩ := Path.exists_steps_of_isAbsolute hfile
  unfold importingDirectory Path.parent?
  rw [hlocation]
  rcases List.eq_nil_or_concat' steps with rfl | ⟨front, last, rfl⟩
  · decide
  · -- the last step is left out, and the root stays in front
    obtain ⟨hfront, hlast⟩ := List.forall_mem_append.mp hsteps
    rw [← List.cons_append, List.getLast?_concat, List.dropLast_concat]
    have hroot := (hlast last (List.mem_singleton_self _)).ne_root
    split
    · rename_i hnone
      cases hnone
    · rename_i hsome
      exact absurd (Option.some.inj hsome) hroot
    · exact Path.isAbsolute_iff.mpr ⟨front, Path.location_ofLocation_root hfront⟩

/-! ## The file behind a candidate -/

/-- What stands behind a candidate in the name of the file that is located for it. -/
def IsProbeSuffix (suffix : String) : Prop :=
  suffix = "" ∨ ∃ extension ∈ probeExtensions, suffix = "." ++ extension

theorem endsName_of_mem_probeExtensions {extension : String}
    (hextension : extension ∈ probeExtensions) : EndsName ("." ++ extension) := by
  have hall : ∀ extension ∈ probeExtensions, EndsName ("." ++ extension) := by decide +kernel
  exact hall extension hextension

theorem MemoryTree.exists_suffix_of_located {tree : MemoryTree} {candidate located : Path}
    (hlocated : tree.located? candidate = some located) :
    ∃ suffix, IsProbeSuffix suffix ∧ located = ⟨candidate.text ++ suffix⟩ := by
  rcases List.mem_cons.mp (List.mem_of_find?_eq_some hlocated) with rfl | hextended
  · exact ⟨"", .inl rfl, by rw [String.append_empty]⟩
  · obtain ⟨extension, hextension, rfl⟩ := List.mem_map.mp hextended
    exact ⟨"." ++ extension, .inr ⟨extension, hextension, rfl⟩,
      congrArg Path.mk (String.append_assoc ..)⟩

/-! ## The address of a candidate -/

theorem RunConfig.isAbsolute_outDir {options : RunOptions} {config : RunConfig}
    (hproject : options.projectDir.isAbsolute = true)
    (hconfigure : options.configure = .ok config) : config.outDir.isAbsolute = true :=
  (RunOptions.configure_ok hconfigure).1 ▸ Path.isAbsolute_anchor hproject options.outDir

/-- **Where an address leads.**  Whatever true answers the cache holds, the address that a
discovered file's specifier is resolved to is marked as relative, and with the suffix of the located
file behind it it leads to that file in these cases and no others: the suffix is empty, or the
candidate is neither the directory of the importing file nor an ancestor of it, or that directory is
the root; and the directory is not spelled with a `..`, or has only the root in common with the
candidate. -/
theorem RunOptions.address_reaches_iff {options : RunOptions} {config : RunConfig}
    {tree : MemoryTree} {world : World MemoryTree} {budget : Nat} {files : List Path} {file : Path}
    {specifier address : String} (hproject : options.projectDir.isAbsolute = true)
    (hconfigure : options.configure = .ok config) (hagrees : world.Agrees tree)
    (hdiscover : ((discover budget config.outDir).run world).1 = .ok files) (hfile : file ∈ files)
    (hresolve : ((config.aliases.resolve specifier file).run world).1 = .resolved address) :
    ("./".toList <+: address.toList ∨ "../".toList <+: address.toList) ∧
      ∃ candidate suffix, config.aliases.chosen? tree specifier file = some candidate ∧
        IsProbeSuffix suffix ∧ tree.located? candidate = some ⟨candidate.text ++ suffix⟩ ∧
        (((importingDirectory file).join ⟨address ++ suffix⟩).normalize =
            ⟨candidate.text ++ suffix⟩ ↔
          (suffix = "" ∨ ¬ candidate.location <+: (importingDirectory file).location ∨
              (importingDirectory file).location = [.root]) ∧
            (.parent ∉ (importingDirectory file).location ∨
              Location.MeetAtRoot (importingDirectory file).location candidate.location)) := by
  have houtDir := RunConfig.isAbsolute_outDir hproject hconfigure
  have hfileAbsolute : file.isAbsolute = true :=
    ((within_discover budget config.outDir).run world houtDir files hdiscover file hfile).1
  have hresolved : config.aliases.resolutionIn tree specifier file = .resolved address :=
    ((config.aliases.finds_resolve specifier file).run hagrees).2.1.symm.trans hresolve
  obtain ⟨entry, remainder, located, target, htarget, hmatch, hchosen, hlocated, haddress⟩ :=
    AliasTable.chosen?_of_resolved hresolved
  obtain ⟨suffix, hsuffix, rfl⟩ := MemoryTree.exists_suffix_of_located hlocated
  -- anchored targets make the candidate absolute
  obtain ⟨names, hcandidate, hnames⟩ := AliasTarget.exists_names_candidate
    (AliasTable.isAbsolute_base (RunOptions.configure_ok hconfigure).2.1
      ((RunOptions.configure_ok hconfigure).1 ▸ houtDir) (AliasTable.match?_eq_some hmatch).1
      htarget) remainder
  refine ⟨?_, target.candidate remainder, suffix, hchosen, hsuffix, hlocated, ?_⟩
  · obtain ⟨path, -, rfl⟩ := Option.map_eq_some_iff.mp haddress
    exact ensureDotted_dotted path.text
  · refine relativeSpecifier?_reaches_iff (isAbsolute_importingDirectory hfileAbsolute) hcandidate
      hnames (hsuffix.imp_right ?_) haddress
    rintro ⟨extension, hextension, rfl⟩
    exact endsName_of_mem_probeExtensions hextension

/-- A module beside the importing one is reached. -/
theorem RunOptions.address_reaches_sample :
    ((RunConfig.sample.aliases.resolve "@/b" ⟨"/p/dist/a.js"⟩).run
        (World.start MemoryTree.sample)).1 = .resolved "./b" ∧
      MemoryTree.sample.located? ⟨"/p/dist/b"⟩ = some ⟨"/p/dist/b.js"⟩ ∧
      ((importingDirectory ⟨"/p/dist/a.js"⟩).join ⟨"./b" ++ ".js"⟩).normalize =
        ⟨"/p/dist/b.js"⟩ := by
  have hresolve : ((RunConfig.sample.aliases.resolve "@/b" ⟨"/p/dist/a.js"⟩).run
      (World.start MemoryTree.sample)).1 = .resolved "./b" := by decide +kernel
  have hchosen : RunConfig.sample.aliases.chosen? MemoryTree.sample "@/b" ⟨"/p/dist/a.js"⟩ =
      some ⟨"/p/dist/b"⟩ := by decide +kernel
  have hlocated : MemoryTree.sample.located? ⟨"/p/dist/b"⟩ = some ⟨"/p/dist/b.js"⟩ := by
    decide +kernel
  obtain ⟨-, candidate, suffix, hchosen', -, hlocated', hreaches⟩ :=
    RunOptions.address_reaches_iff (by decide +kernel) RunOptions.configure_sample
      (World.agrees_start (.refl MemoryTree.sample) (List.suffix_refl _))
      RunConfig.discover_sample (List.mem_cons_self ..) hresolve
  obtain rfl := Option.some.inj (hchosen.symm.trans hchosen')
  have htext : "/p/dist/b" ++ ".js" = "/p/dist/b" ++ suffix :=
    congrArg Path.text (Option.some.inj (hlocated.symm.trans hlocated'))
  obtain rfl := (String.append_right_inj _).mp htext
  exact ⟨hresolve, hlocated, hreaches.mpr
    ⟨.inr (.inl (by decide +kernel)), .inl (by decide +kernel)⟩⟩

/-- A module, and beside it a directory of the same name with a module that imports it. -/
def MemoryTree.twins : MemoryTree :=
  ((MemoryTree.empty ⟨"/"⟩).putFile [.root, .name "p", .name "dist", .name "app.js"]
    "".toUTF8).putFile [.root, .name "p", .name "dist", .name "app", .name "x.js"]
      "import '@/app'".toUTF8

/-- The address of the directory of the importing file does not lead to the module beside it. -/
theorem RunOptions.address_misses_sample :
    RunOptions.sample.projectDir.isAbsolute = true ∧
      RunOptions.sample.configure = .ok RunConfig.sample ∧
      (∃ files, ((discover (RunOptions.sample.directoryBound MemoryTree.twins)
        RunConfig.sample.outDir).run (World.start MemoryTree.twins)).1 = .ok files ∧
          ⟨"/p/dist/app/x.js"⟩ ∈ files) ∧
      ((RunConfig.sample.aliases.resolve "@/app" ⟨"/p/dist/app/x.js"⟩).run
        (World.start MemoryTree.twins)).1 = .resolved "./" ∧
      RunConfig.sample.aliases.chosen? MemoryTree.twins "@/app" ⟨"/p/dist/app/x.js"⟩ =
        some ⟨"/p/dist/app"⟩ ∧
      MemoryTree.twins.located? ⟨"/p/dist/app"⟩ = some ⟨"/p/dist/app" ++ ".js"⟩ ∧
      ((importingDirectory ⟨"/p/dist/app/x.js"⟩).join ⟨"./" ++ ".js"⟩).normalize ≠
        ⟨"/p/dist/app" ++ ".js"⟩ := by
  have hexplore : ((Walk.explore RunConfig.sample.outDir
      (RunOptions.sample.directoryBound MemoryTree.twins) (.start RunConfig.sample.outDir)).run
        (World.start MemoryTree.twins)).1.toOption =
      some ⟨[], [⟨"/p/dist/app/x.js"⟩, ⟨"/p/dist/app.js"⟩]⟩ := by decide +kernel
  refine ⟨by decide +kernel, RunOptions.configure_sample, ⟨_, discover_of_explore hexplore, ?_⟩,
    by decide +kernel, by decide +kernel, by decide +kernel, by decide +kernel⟩
  exact (List.mergeSort_perm _ _).mem_iff.mpr (by simp)

end Dealias
